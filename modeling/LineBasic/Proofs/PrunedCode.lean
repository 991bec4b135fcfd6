import Mathlib.Order.Bounds.Basic
import LineBasic.Proofs.Mirroring
import LineBasic.Proofs.Pruning
import LineBasic.Proofs.StandardNatives

namespace LineBasic

variable {R : Type}

open LineBasic.Action LinkedCode

section

variable [NumberSystem R] {keep : LineNumber → Bool} {lines : List (ActionLine R)}

namespace Action

def lineCode (b : Nat) (line : ActionLine R) : List (Instruction R String) :=
  [.label (lineLabel line.number), .line line.number] ++ (codeAll b line.actions).1

theorem linesCode_cons (b : Nat) (line : ActionLine R) (later : List (ActionLine R)) :
    (linesCode b (line :: later)).1 =
      lineCode b line ++ (linesCode (codeAll b line.actions).2 later).1 := by
  rw [linesCode, lineCode]

theorem mirrors_lineCode (b b' : Nat) (line : ActionLine R) :
    Mirrors (forsAll line.actions)
      (sharedOutside (targetsAll line.actions) (nextsAll line.actions)) (lineCode b line)
      (lineCode b' line) := by
  have hfront : Mirrors [] []
      [(.label (lineLabel line.number) : Instruction R String), .line line.number]
      [.label (lineLabel line.number), .line line.number] :=
    .of_plain (by simp [Instruction.target?])
  exact hfront.append (mirrors_codeAll b b' line.actions)

def lineWidth (line : ActionLine R) : Nat :=
  widthOf (lineCode 0 line)

theorem widthOf_lineCode (b : Nat) (line : ActionLine R) :
    widthOf (lineCode b line) = lineWidth line :=
  Mirrors.widthOf_eq (mirrors_lineCode 0 b line).sameShape

theorem lineWidth_pos (line : ActionLine R) : 0 < lineWidth line := by
  rw [lineWidth, lineCode, widthOf_append]
  exact Nat.lt_of_lt_of_le Nat.zero_lt_one (Nat.le_add_right 1 _)

/-- The code of actions that control does not come to the end of ends in an instruction that control does not come
through. -/
theorem codeAll_of_endsElsewhere {as : List (Action R)} (h : endsElsewhere as) :
    ∃ (init : List (Action R)) (i : Instruction R String), i.label? = none ∧
      i.isTerminal ∧ ∀ b, (codeAll b as).1 = (codeAll b init).1 ++ [i] := by
  rw [endsElsewhere] at h
  cases hlast : as.getLast? with
  | none =>
      rw [hlast] at h
      cases h
  | some a =>
      rw [hlast] at h
      obtain ⟨init, rfl⟩ := List.getLast?_eq_some_iff.mp hlast
      cases a with
      | «end» => exact ⟨init, .end, rfl, rfl, fun b => by rw [codeAll_append]; rfl⟩
      | goto n =>
          exact ⟨init, .jump (lineLabel n), rfl, rfl, fun b => by rw [codeAll_append]; rfl⟩
      | «return» => exact ⟨init, .return, rfl, rfl, fun b => by rw [codeAll_append]; rfl⟩
      | _ => cases h

theorem lineCode_of_endsElsewhere {line : ActionLine R} (h : endsElsewhere line.actions) :
    ∃ (init : ActionLine R) (i : Instruction R String), i.label? = none ∧ i.isTerminal ∧
      ∀ b, lineCode b line = lineCode b init ++ [i] := by
  obtain ⟨init, i, hlabel, hterminal, hcode⟩ := codeAll_of_endsElsewhere h
  refine ⟨⟨line.number, init⟩, i, hlabel, hterminal, fun b => ?_⟩
  rw [lineCode, lineCode, hcode, List.append_assoc]

/-- Where the code of the lines that are kept stands in the code of all the lines. -/
def placeIn (keep : LineNumber → Bool) : List (ActionLine R) → Nat → Nat
  | [], k => k
  | line :: later, k =>
      if keep line.number then
        if k < lineWidth line then k else lineWidth line + placeIn keep later (k - lineWidth line)
      else lineWidth line + placeIn keep later k

theorem placeIn_lt_succ (k : Nat) : placeIn keep lines k < placeIn keep lines (k + 1) := by
  induction lines generalizing k with
  | nil => exact Nat.lt_succ_self k
  | cons line later ih =>
      rw [placeIn, placeIn]
      split
      · split
        · split
          · exact Nat.lt_succ_self k
          · omega
        · rename_i hout
          have hlt := ih (k - lineWidth line)
          rw [if_neg (by omega), Nat.sub_add_comm (Nat.not_lt.mp hout)]
          exact Nat.add_lt_add_left hlt _
      · exact Nat.add_lt_add_left (ih k) _

theorem strictMono_placeIn : StrictMono (placeIn keep lines) :=
  strictMono_nat_of_lt_succ placeIn_lt_succ

theorem placeIn_zero (h : ∀ line ∈ lines.head?, keep line.number) : placeIn keep lines 0 = 0 := by
  cases lines with
  | nil => rfl
  | cons line later => rw [placeIn, if_pos (h line rfl), if_pos (lineWidth_pos line)]

theorem placeIn_behind (keep : LineNumber → Bool) (lines : List (ActionLine R)) (b b' k : Nat) :
    placeIn keep lines (widthOf (linesCode b' (keptLines keep lines)).1 + k) =
      widthOf (linesCode b lines).1 + k := by
  induction lines generalizing b b' with
  | nil => rfl
  | cons line later ih =>
      rw [placeIn, linesCode_cons, widthOf_append, widthOf_lineCode, Nat.add_assoc]
      split
      · rename_i hkeep
        rw [keptLines_cons hkeep, linesCode_cons, widthOf_append, widthOf_lineCode,
          if_neg (by omega), Nat.add_assoc, Nat.add_sub_cancel_left, ih]
      · rename_i hkeep
        rw [keptLines_cons_of_not hkeep, ih]

theorem length_linesCode_keptLines (keep : LineNumber → Bool) (lines : List (ActionLine R))
    (b b' : Nat) :
    (linesCode b' (keptLines keep lines)).1.length ≤ (linesCode b lines).1.length := by
  induction lines generalizing b b' with
  | nil => exact Nat.le_refl _
  | cons line later ih =>
      rw [linesCode_cons, List.length_append]
      by_cases hkeep : keep line.number
      · rw [keptLines_cons hkeep, linesCode_cons, List.length_append,
          (mirrors_lineCode b b' line).sameShape.length_eq]
        exact Nat.add_le_add_left (ih _ _) _
      · rw [keptLines_cons_of_not hkeep]
        exact Nat.le_trans (ih _ _) (Nat.le_add_left _ _)

end Action

variable {whole part : LinkedCode R} {place : Nat → Nat}

/-- A branch to `name` in one code goes to the place of what a branch to `name'` goes to in the other. -/
def LinkedCode.Leads (whole part : LinkedCode R) (place : Nat → Nat) (name name' : String) :
    Prop :=
  ∃ a, whole.labels[name]? = some (place a) ∧ part.labels[name']? = some a

/-- A line that stands in both codes. Its end is also the end of its place, unless control never comes there. -/
structure Standing (whole part : LinkedCode R) (place : Nat → Nat) (line : ActionLine R)
    (b b' address address' : Nat) : Prop where
  placed : whole.Placed address (lineCode b line)
  placed' : part.Placed address' (lineCode b' line)
  place_eq : ∀ k ≤ lineWidth line, (endsElsewhere line.actions → k < lineWidth line) →
    place (address' + k) = address + k

namespace Standing

variable {line : ActionLine R} {b b' address address' : Nat}

/-- The labels of the line are found at the same place. -/
theorem leads (h : Standing whole part place line b b' address address') {name name' : String}
    (hmem : (.label name, .label name') ∈ (lineCode b line).zip (lineCode b' line)) :
    whole.Leads part place name name' := by
  suffices hlabel : ∃ k ≤ lineWidth line, (endsElsewhere line.actions → k < lineWidth line) ∧
      whole.labels[name]? = some (address + k) ∧
      part.labels[name']? = some (address' + k) by
    obtain ⟨k, hk, hend, hname, hname'⟩ := hlabel
    exact ⟨address' + k, by rwa [h.place_eq k hk hend], hname'⟩
  by_cases hend : endsElsewhere line.actions
  · -- The last instruction of the line is no label.
    obtain ⟨init, i, hi, -, hcode⟩ := lineCode_of_endsElsewhere hend
    have hplaced := h.placed
    have hplaced' := h.placed'
    have hshape := (mirrors_lineCode b b' init).sameShape
    have hwidth : widthOf (lineCode b init) < lineWidth line := by
      rw [← widthOf_lineCode b line, hcode, widthOf_append, widthOf, widthOf,
        Instruction.label?_eq_none_iff.mp hi]
      exact Nat.lt_succ_self _
    rw [hcode, placed_append] at hplaced hplaced'
    rw [hcode, hcode, List.zip_append hshape.length_eq, List.mem_append] at hmem
    have hmem := hmem.resolve_right fun hlast => by
      rw [List.zip_cons_cons, List.zip_nil_right, List.mem_singleton, Prod.mk.injEq] at hlast
      rw [← hlast.1] at hi
      cases hi
    obtain ⟨k, hk, hname, hname'⟩ := holds_of_mem_zip hshape hplaced.1 hplaced'.1 hmem
    have hk := Nat.lt_of_le_of_lt (Nat.le_of_add_right_le hk) hwidth
    exact ⟨k, Nat.le_of_lt hk, fun _ => hk, hname, hname'⟩
  · obtain ⟨k, hk, hname, hname'⟩ := holds_of_mem_zip (mirrors_lineCode b b' line).sameShape
      h.placed h.placed' hmem
    rw [widthOf_lineCode] at hk
    exact ⟨k, Nat.le_of_add_right_le hk, fun hend' => absurd hend' hend, hname, hname'⟩

/-- An instruction of the line is found at its place, if the line leads to the same places. -/
theorem code_eq (h : Standing whole part place line b b' address address')
    (houtside : ∀ name ∈ outside (targetsAll line.actions) (nextsAll line.actions),
      whole.Leads part place name name) {k : Nat} (hk : k < lineWidth line) :
    whole.code[place (address' + k)]? =
      part.code[address' + k]?.map (Instruction.retarget place) := by
  have hmirrors := mirrors_lineCode b b' line
  obtain ⟨x, hmem, hlabel, hshape, hholds, hholds'⟩ := exists_mem_zip hmirrors.sameShape
    h.placed h.placed' (k := k) (by rwa [widthOf_lineCode])
  have hlabel' : x.2.label? = none := by
    rw [← Option.not_isSome_iff_eq_none, hshape.label?_isSome, hlabel]
    exact Bool.false_ne_true
  rw [Holds, hlabel] at hholds
  rw [Holds, hlabel'] at hholds'
  obtain ⟨j, hj, hcode⟩ := hholds
  obtain ⟨j', hj', hcode'⟩ := hholds'
  rw [h.place_eq k (Nat.le_of_lt hk) fun _ => hk, hcode, hcode', Option.map_some,
    hshape.resolve_eq hlabel ?_ hj hj']
  intro t t' ht ht'
  have hleads : whole.Leads part place t t' := by
    rcases hmirrors.target_mem x hmem t t' ht ht' with hinside | houts
    · exact h.leads hinside
    · obtain ⟨rfl, hname⟩ := mem_shared.mp houts
      exact houtside t hname
  obtain ⟨a, ha, ha'⟩ := hleads
  exact ⟨a, find_of_label ha, find_of_label ha'⟩

/-- What control may come to from an instruction of the line stands next. -/
theorem next_eq (h : Standing whole part place line b b' address address') {k : Nat}
    (hk : k < lineWidth line) {i : Instruction R Nat}
    (hi : part.code[address' + k]? = some i) (hnext : i.isTerminal = false) :
    place (address' + k + 1) = place (address' + k) + 1 := by
  rw [h.place_eq k (Nat.le_of_lt hk) fun _ => hk, Nat.add_assoc, Nat.add_assoc]
  refine h.place_eq (k + 1) hk fun hend => ?_
  by_contra hlast
  obtain ⟨init, i', hlabel, hterminal, hcode⟩ := lineCode_of_endsElsewhere hend
  have hplaced' := h.placed'
  have hwidth := widthOf_lineCode b' line
  rw [hcode, widthOf_append, widthOf, widthOf, Instruction.label?_eq_none_iff.mp hlabel] at hwidth
  rw [hcode, placed_append] at hplaced'
  obtain rfl : k = widthOf (lineCode b' init) := by omega
  have hholds := hplaced'.2.1
  rw [Holds, hlabel] at hholds
  obtain ⟨j, hj, hcode'⟩ := hholds
  rw [hi, Option.some.injEq] at hcode'
  rw [hcode', Instruction.isTerminal_resolve hj, hterminal] at hnext
  cases hnext

end Standing

theorem standing_of_kept {line : ActionLine R} {later : List (ActionLine R)}
    (hkeep : keep line.number)
    (hnext : endsElsewhere line.actions = false → ∀ line' ∈ later.head?, keep line'.number)
    {b b' address address' : Nat} (hplaced : whole.Placed address (lineCode b line))
    (hplaced' : part.Placed address' (lineCode b' line))
    (hplace : ∀ k, place (address' + k) = address + placeIn keep (line :: later) k) :
    Standing whole part place line b b' address address' where
  placed := hplaced
  placed' := hplaced'
  place_eq k hk hend := by
    rw [hplace, placeIn, if_pos hkeep]
    split
    · rfl
    · -- Control comes to the end of the line, and goes on in the next one.
      obtain rfl : k = lineWidth line := by omega
      have hcomes : endsElsewhere line.actions = false := by
        rw [← Bool.not_eq_true]
        exact fun hend' => Nat.lt_irrefl _ (hend hend')
      rw [Nat.sub_self, placeIn_zero (hnext hcomes), Nat.add_zero]

theorem standing_linesCode
    (hnext : ∀ front line line' later, lines = front ++ line :: line' :: later →
      keep line.number → endsElsewhere line.actions = false → keep line'.number)
    {b b' address address' : Nat} (hplaced : whole.Placed address (linesCode b lines).1)
    (hplaced' : part.Placed address' (linesCode b' (keptLines keep lines)).1)
    (hplace : ∀ k, place (address' + k) = address + placeIn keep lines k) :
    (∀ line ∈ lines, keep line.number →
      ∃ b b' address address', Standing whole part place line b b' address address') ∧
    ∀ k < widthOf (linesCode b' (keptLines keep lines)).1,
      ∃ line ∈ lines, keep line.number ∧ ∃ b b' A A', ∃ j < lineWidth line,
        Standing whole part place line b b' A A' ∧ address' + k = A' + j := by
  induction lines generalizing b b' address address' with
  | nil => exact ⟨fun _ h => absurd h List.not_mem_nil, fun k hk => absurd hk (Nat.not_lt_zero k)⟩
  | cons line later ih =>
      have hlater (front : List (ActionLine R)) (line₁ line' : ActionLine R)
          (back : List (ActionLine R)) (hback : later = front ++ line₁ :: line' :: back) :=
        hnext (line :: front) line₁ line' back (congrArg (line :: ·) hback)
      rw [linesCode_cons, placed_append, widthOf_lineCode] at hplaced
      by_cases hkeep : keep line.number
      · rw [keptLines_cons hkeep, linesCode_cons, placed_append, widthOf_lineCode] at hplaced'
        have hstanding : Standing whole part place line b b' address address' := by
          refine standing_of_kept hkeep ?_ hplaced.1 hplaced'.1 hplace
          intro hcomes line' hline'
          obtain ⟨back, rfl⟩ := List.head?_eq_some_iff.mp hline'
          exact hnext [] line line' back rfl hkeep hcomes
        have hrest (k : Nat) : place (address' + lineWidth line + k) =
            address + lineWidth line + placeIn keep later k := by
          rw [Nat.add_assoc, hplace, placeIn, if_pos hkeep, if_neg (by omega),
            Nat.add_sub_cancel_left, Nat.add_assoc]
        obtain ⟨hall, haddress⟩ := ih hlater hplaced.2 hplaced'.2 hrest
        constructor
        · intro line' hline' hkeep'
          rcases List.mem_cons.mp hline' with rfl | hline'
          · exact ⟨b, b', address, address', hstanding⟩
          · exact hall line' hline' hkeep'
        · intro k hk
          rw [keptLines_cons hkeep, linesCode_cons, widthOf_append, widthOf_lineCode] at hk
          rcases Nat.lt_or_ge k (lineWidth line) with hin | hout
          · exact ⟨line, List.mem_cons_self, hkeep, b, b', address, address', k, hin, hstanding,
              rfl⟩
          · obtain ⟨line', hline', hkeep', B, B', A, A', j, hj, hstands, heq⟩ :=
              haddress (k - lineWidth line) (by omega)
            refine ⟨line', List.mem_cons_of_mem _ hline', hkeep', B, B', A, A', j, hj, hstands, ?_⟩
            rw [← heq]
            omega
      · rw [keptLines_cons_of_not hkeep] at hplaced' ⊢
        have hrest (k : Nat) : place (address' + k) =
            address + lineWidth line + placeIn keep later k := by
          rw [hplace, placeIn, if_neg hkeep, Nat.add_assoc]
        obtain ⟨hall, haddress⟩ := ih hlater hplaced.2 hplaced' hrest
        constructor
        · intro line' hline' hkeep'
          rcases List.mem_cons.mp hline' with rfl | hline'
          · exact absurd hkeep' hkeep
          · exact hall line' hline' hkeep'
        · intro k hk
          obtain ⟨line', hline', hrest⟩ := haddress k hk
          exact ⟨line', List.mem_cons_of_mem _ hline', hrest⟩

/-- Whatever the lines name is among them. -/
structure Closed (lines : List (ActionLine R)) : Prop where
  targets : ∀ line ∈ lines, ∀ n ∈ targetsAll line.actions, ∃ line' ∈ lines, line'.number = n
  nexts : ∀ line ∈ lines, ∀ n ∈ nextsAll line.actions, ∃ line' ∈ lines, n ∈ forsAll line'.actions

theorem leads_of_kept (hprunable : Prunable keep lines) (hclosed : Closed lines)
    (hstanding : ∀ line ∈ lines, keep line.number →
      ∃ b b' address address', Standing whole part place line b b' address address')
    {line : ActionLine R} (hline : line ∈ lines) (hkeep : keep line.number) {name : String}
    (hname : name ∈ outside (targetsAll line.actions) (nextsAll line.actions)) :
    whole.Leads part place name name := by
  rw [outside, List.mem_append] at hname
  rcases hname with hname | hname
  · obtain ⟨n, hn, rfl⟩ := List.mem_map.mp hname
    obtain ⟨line', hline', rfl⟩ := hclosed.targets line hline n hn
    obtain ⟨b, b', address, address', hstands⟩ :=
      hstanding line' hline' (hprunable.targets line hline hkeep _ hn)
    exact hstands.leads List.mem_cons_self
  · obtain ⟨n, hn, rfl⟩ := List.mem_map.mp hname
    obtain ⟨line', hline', hfor⟩ := hclosed.nexts line hline n hn
    obtain ⟨b, b', address, address', hstands⟩ :=
      hstanding line' hline' (hprunable.loops line' hline' (List.ne_nil_of_mem hfor))
    exact hstands.leads ((mirrors_lineCode b b' line').body_mem n hfor)

theorem Prunable.excerpt (hprunable : Prunable keep lines) (hclosed : Closed lines)
    (hwhole : link (layout lines) = .ok whole)
    (hpart : link (layout (keptLines keep lines)) = .ok part) :
    Nonempty (part.Excerpt whole) := by
  obtain ⟨-, hplaced, hend⟩ := placed_layout hwhole
  obtain ⟨-, hplaced', hend'⟩ := placed_layout hpart
  have hplace (k : Nat) : placeIn keep lines (0 + k) = 0 + placeIn keep lines k := by
    rw [Nat.zero_add, Nat.zero_add]
  obtain ⟨hstanding, haddress⟩ := standing_linesCode hprunable.next hplaced hplaced' hplace
  rw [Nat.zero_add] at hend hend'
  have hbehind := placeIn_behind keep lines 0 0
  have hsize := size_of_link hwhole
  have hsize' := size_of_link hpart
  simp only [layout, widthOf_append, widthOf, Instruction.width, Instruction.label?,
    Option.isSome_some, Option.isSome_none, if_true, Bool.false_eq_true, if_false] at hsize hsize'
  refine ⟨⟨placeIn keep lines, placeIn_zero hprunable.first, strictMono_placeIn, ?_, ?_⟩⟩
  · intro a
    rcases Nat.lt_or_ge a (widthOf (linesCode 0 (keptLines keep lines)).1) with hin | hout
    · obtain ⟨line, hline, hkeep, b, b', A, A', j, hj, hstands, heq⟩ := haddress a hin
      rw [Nat.zero_add] at heq
      rw [heq]
      exact hstands.code_eq (fun _ => leads_of_kept hprunable hclosed hstanding hline hkeep) hj
    · obtain ⟨k, rfl⟩ := Nat.exists_eq_add_of_le hout
      rw [hbehind]
      cases k with
      | zero =>
          rw [Nat.add_zero, Nat.add_zero, hend, hend']
          rfl
      | succ k =>
          rw [Array.getElem?_eq_none (by omega), Array.getElem?_eq_none (by omega)]
          rfl
  · intro a i hi hnext
    rcases Nat.lt_or_ge a (widthOf (linesCode 0 (keptLines keep lines)).1) with hin | hout
    · obtain ⟨line, hline, hkeep, b, b', A, A', j, hj, hstands, heq⟩ := haddress a hin
      rw [Nat.zero_add] at heq
      rw [heq] at hi ⊢
      exact hstands.next_eq hj hi hnext
    · obtain ⟨k, rfl⟩ := Nat.exists_eq_add_of_le hout
      rw [Nat.add_assoc, hbehind, hbehind]
      rfl

end

namespace Flow

variable {p : Program R}

/-- The first line of a program and its lines with loops are in the set, and with a line all its successors. -/
structure Retains (p : Program R) (S : Set LineNumber) : Prop where
  first : ∀ line ∈ p.lines.head?, line.number ∈ S
  loops : ∀ line ∈ p.lines, Stmt.anyHasLoop line.statements → line.number ∈ S
  successors : ∀ n ∈ S, ∀ target ∈ (ofProgram p).successorsOf n, target ∈ S

theorem Retains.of_mem_seeds {S : Set LineNumber} (h : Retains p S) {n : LineNumber}
    (hn : n ∈ seeds p.lines) : n ∈ S := by
  have hfirst := h.first
  have hloops := h.loops
  cases hlines : p.lines with
  | nil =>
      rw [hlines] at hn
      cases hn
  | cons first rest =>
      rw [hlines] at hn hfirst hloops
      rw [seeds, List.mem_cons, List.mem_map] at hn
      rcases hn with rfl | ⟨line, hline, rfl⟩
      · exact hfirst first rfl
      · obtain ⟨hmem, hloop⟩ := List.mem_filter.mp hline
        exact hloops line (List.mem_cons_of_mem _ hmem) hloop

/-- The search finds the least such set. -/
theorem isLeast_isReachable (hnodup : p.numbers.Nodup) :
    IsLeast {S | Retains p S} {n | (ofProgram p).isReachable n} := by
  constructor
  · refine ⟨fun line hline => ?_, fun line => isReachable_of_anyHasLoop, ?_⟩
    · obtain ⟨back, hlines⟩ := List.head?_eq_some_iff.mp hline
      exact isReachable_first hlines
    · intro n hn target htarget
      exact isReachable_of_mem_successorsOf hn htarget
  · intro S hS n hn
    refine isReachable_induction (fun n => hS.of_mem_seeds) ?_ hn
    intro front line back hlines hline target htarget
    rw [← successorsOf_eq hnodup hlines] at htarget
    exact hS.successors line.number hline target htarget

end Flow

variable [NumberSystem R] {p : Program R}

omit [NumberSystem R] in
theorem Program.Coherent.closed (h : p.Coherent) : Closed p.actionLines where
  targets _ hline _ hn := h.number_mem_of_targets hline hn
  nexts line hline n hn := by
    apply exists_of_mem_forsAll_flatMap
    rw [Program.flatMap_actionLines]
    apply p.mem_forsAll_of_mem_nextsAll
    rw [← Program.flatMap_actionLines]
    exact mem_flatMap_of_append nextsAll_append hline hn

theorem Program.Coherent.exists_excerpt (h : p.Coherent)
    (hroom : p.layout.length ≤ Program.maxCode) :
    ∃ whole part, ((Flow.ofProgram p).prune p).code = .ok ((Flow.ofProgram p).prune p).layout ∧
      link p.layout = .ok whole ∧ link ((Flow.ofProgram p).prune p).layout = .ok part ∧
      Nonempty (part.Excerpt whole) := by
  have hlayout : ((Flow.ofProgram p).prune p).layout =
      Action.layout (keptLines (Flow.ofProgram p).isReachable p.actionLines) := by
    rw [Program.layout, Program.actionLines_prune]
  obtain ⟨whole, hwhole⟩ := h.links
  obtain ⟨part, hpart⟩ := h.prune.links
  have hpart' := hpart
  rw [hlayout] at hpart'
  refine ⟨whole, part, ?_, hwhole, hpart,
    (Program.prunable h.nodup).excerpt h.closed hwhole hpart'⟩
  refine Program.code_eq_ok_iff.mpr ⟨h.prune.loopsPair, Nat.le_trans ?_ hroom, rfl⟩
  rw [hlayout, Program.layout, Action.layout, Action.layout, List.length_append, List.length_append,
    List.length_append, List.length_append]
  have hlength := length_linesCode_keptLines (Flow.ofProgram p).isReachable p.actionLines 0 0
  omega

/-- Pruning keeps the least set of lines that holds the first line and the lines with loops and with a line all that it
leads to. If a program has code then it has code without the other lines as well, and machines with the two codes run in
lock step, whatever their natives, their hook and its interval: after any number of steps they have come to the same place
in the same world, so the natives were called and the hook was polled in the same way, and they have the same variables,
the same stack and the same end. The instructions at a place are the same but for the addresses of targets. -/
theorem pruned_in_lock_step (hascending : p.numbers.Pairwise (· < ·))
    (htargets : ∀ t ∈ Program.targetsOf p.lines, t.line ∈ p.numbers)
    {code : List (Instruction R String)} (hcode : p.code = .ok code) :
    IsLeast {S | Flow.Retains p S} {n | (Flow.ofProgram p).isReachable n} ∧
    (∀ front line back, p.lines = front ++ line :: back →
      (Flow.ofProgram p).successorsOf line.number =
        Flow.leadsTo line (back.head?.map ProgramLine.number)) ∧
    ∃ pruned whole part, ((Flow.ofProgram p).prune p).code = .ok pruned ∧
      link code = .ok whole ∧ link pruned = .ok part ∧
      ∃ e : part.Excerpt whole, ∀ (W : Type) (m : Machine R W) (w : W),
        ∃ r, (m.on part).start Script.entry = .ok r ∧
          (m.on whole).start Script.entry = .ok (r.move e.place) ∧
          ∀ fuel, (m.on whole).advance fuel (r.move e.place) w =
            moved e.place ((m.on part).advance fuel r w) := by
  have hnodup : p.numbers.Nodup := hascending.imp fun hlt => Nat.ne_of_lt hlt
  obtain ⟨hpair, hroom, rfl⟩ := Program.code_eq_ok_iff.mp hcode
  have hcoherent : p.Coherent := ⟨hnodup, htargets, hpair⟩
  refine ⟨Flow.isLeast_isReachable hnodup, fun _ _ _ => Flow.successorsOf_eq hnodup, ?_⟩
  obtain ⟨whole, part, hpruned, hwhole, hpart, ⟨e⟩⟩ := hcoherent.exists_excerpt hroom
  refine ⟨_, whole, part, hpruned, hwhole, hpart, e, fun W m w => ?_⟩
  have hstart {linked : LinkedCode R} (hlink : linked.labels[Script.entry]? = some 0) :
      (m.on linked).start Script.entry = .ok { address := 0, countdown := m.period } := by
    have hentry : (m.on linked).linked.labels[Script.entry]? = some 0 := hlink
    rw [Machine.start, hentry]
    rfl
  refine ⟨_, hstart (placed_layout hpart).1, ?_, fun fuel => Machine.advance_move e m fuel _ w⟩
  rw [hstart (placed_layout hwhole).1]
  simp only [Registers.move, e.place_zero]
  rfl

def detour : String :=
  "10 GOSUB 60\n20 IF A THEN GOTO 70\n30 END\n40 IF A THEN PRINT 1\n50 GOTO 40\n60 RETURN\n" ++
    "70 FOR J=1 TO 2: IF J-1 THEN PRINT J\n80 NEXT J"

/-- A GOSUB comes back across lines that are dropped, one of them with an IF; a loop that is never reached is kept. -/
theorem pruned_in_lock_step_gosub :
    ∃ (p : Program Float) (code pruned : List (Instruction Float String))
      (whole part : LinkedCode Float) (e : part.Excerpt whole),
      Program.read .standard detour = .ok p ∧
      p.code = .ok code ∧ ((Flow.ofProgram p).prune p).code = .ok pruned ∧
      (Flow.ofProgram p).unreachable = [40, 50] ∧ pruned.length < code.length ∧
      link code = .ok whole ∧ link pruned = .ok part ∧
      ∃ r, (Machine.standard.on part).start Script.entry = .ok r ∧
        (Machine.standard.on whole).start Script.entry = .ok (r.move e.place) ∧
        ∀ fuel, (Machine.standard.on whole).advance fuel (r.move e.place) "" =
          moved e.place ((Machine.standard.on part).advance fuel r "") := by
  have hread : ((Program.read (R := Float) .standard detour).toOption.bind
      fun p => p.code.toOption.bind fun code =>
        ((Flow.ofProgram p).prune p).code.toOption.map fun pruned =>
          decide ((p.numbers.Pairwise (· < ·) ∧
            ∀ t ∈ Program.targetsOf p.lines, t.line ∈ p.numbers) ∧
            (Flow.ofProgram p).unreachable = [40, 50] ∧ pruned.length < code.length)) =
      some true := by
    decide +kernel
  simp only [Option.bind_eq_some_iff, Option.map_eq_some_iff, decide_eq_true_eq] at hread
  obtain ⟨p, hp, code, hcode, pruned, hpruned, ⟨hascending, htargets⟩, hdropped, hshorter⟩ := hread
  have hread := eq_ok_of_toOption hp
  have hcode := eq_ok_of_toOption hcode
  have hpruned := eq_ok_of_toOption hpruned
  obtain ⟨-, -, code', whole, part, hcode', hwhole, hpart, e, hruns⟩ :=
    pruned_in_lock_step hascending htargets hcode
  obtain rfl : pruned = code' := Except.ok.inj (hpruned.symm.trans hcode')
  exact ⟨p, code, pruned, whole, part, e, hread, hcode, hpruned, hdropped, hshorter, hwhole, hpart,
    hruns String Machine.standard ""⟩

end LineBasic
