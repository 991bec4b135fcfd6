import LineBasic.Proofs.Places
import LineBasic.Proofs.TidyPlaces

namespace LineBasic

variable {R : Type}

namespace Instruction

variable {T : Type}

def marker? : Instruction R T → Option LineNumber
  | line n => some n
  | _ => none

/-- Where an instruction may go on, except for those that go back. -/
def jump? : Instruction R T → Option T
  | jump t | ifNot t | gosub t => some t
  | _ => none

theorem marker?_resolve {f : String → Except Error Nat} {i : Instruction R String}
    {j : Instruction R Nat} (h : i.resolve f = .ok j) : j.marker? = i.marker? := by
  cases i with
  | jump t | ifNot t | gosub t | next _ _ _ t =>
      obtain ⟨_, -, hj⟩ := Stmt.bind_eq_ok h
      cases hj
      rfl
  | _ =>
      cases h
      rfl

theorem jump?_resolve {f : String → Except Error Nat} {i : Instruction R String}
    {j : Instruction R Nat} (h : i.resolve f = .ok j) {t : Nat} (ht : j.jump? = some t) :
    ∃ name, i.jump? = some name ∧ f name = .ok t := by
  cases i with
  | jump name | ifNot name | gosub name =>
      obtain ⟨_, hname, hj⟩ := Stmt.bind_eq_ok h
      cases hj
      cases ht
      exact ⟨name, rfl, hname⟩
  | next _ _ _ name =>
      obtain ⟨_, -, hj⟩ := Stmt.bind_eq_ok h
      cases hj
      cases ht
  | _ =>
      cases h
      cases ht

@[simp] theorem marker?_reread [NumberSystem R] (i : Instruction R T) :
    i.reread.marker? = i.marker? := by
  cases i <;> rfl

@[simp] theorem jump?_reread [NumberSystem R] (i : Instruction R T) :
    i.reread.jump? = i.jump? := by
  cases i <;> rfl

end Instruction

namespace LinkedCode

def marker? (linked : LinkedCode R) (address : Nat) : Option LineNumber :=
  linked.code[address]?.bind Instruction.marker?

/-- The number in the last marker in front of an address. -/
def lineBefore? (linked : LinkedCode R) : Nat → Option LineNumber
  | 0 => none
  | address + 1 => (linked.marker? address).or (linked.lineBefore? address)

variable {linked : LinkedCode R} {address : Nat} {code : List (Instruction R String)}

theorem marker?_of_holds {i : Instruction R String} (h : linked.Holds address i)
    (hlabel : i.label? = none) : linked.marker? address = i.marker? := by
  rw [Holds, hlabel] at h
  obtain ⟨j, hj, hcode⟩ := h
  rw [marker?, hcode]
  exact Instruction.marker?_resolve hj

theorem exists_of_placed (h : linked.Placed address code) {a : Nat} (hle : address ≤ a)
    (hlt : a < address + widthOf code) :
    ∃ i ∈ code, i.label? = none ∧ linked.Holds a i := by
  induction code generalizing address with
  | nil =>
      rw [widthOf] at hlt
      omega
  | cons i code ih =>
      obtain ⟨hi, hcode⟩ := h
      rw [widthOf] at hlt
      rcases Nat.lt_or_ge a (address + i.width) with hin | hout
      · have hwidth : i.width = 1 := by
          rw [Instruction.width] at hin ⊢
          split
          · rename_i hlabel
            rw [if_pos hlabel] at hin
            omega
          · rfl
        obtain rfl : a = address := by omega
        exact ⟨i, List.mem_cons_self, Instruction.label?_eq_none_iff.mpr hwidth, hi⟩
      · obtain ⟨i', hmem, hi'⟩ := ih hcode hout (by omega)
        exact ⟨i', List.mem_cons_of_mem _ hmem, hi'⟩

theorem label_of_placed (h : linked.Placed address code) {name : String}
    (hname : name ∈ labelsOf code) :
    ∃ t, linked.labels[name]? = some t ∧ address ≤ t ∧ t ≤ address + widthOf code := by
  obtain ⟨label, hmem, hlabel⟩ := List.mem_filterMap.mp hname
  obtain rfl := Instruction.label?_eq_some_iff.mp hlabel
  obtain ⟨front, back, rfl⟩ := List.append_of_mem hmem
  rw [placed_append] at h
  refine ⟨address + widthOf front, h.2.1, by omega, ?_⟩
  rw [widthOf_append]
  omega

theorem lineBefore?_of_placed {n : LineNumber} (hmarkers : ∀ i ∈ code, i.marker? = none)
    (h : linked.Placed address code) (hline : linked.lineBefore? address = some n) {a : Nat}
    (hle : address ≤ a) (hle' : a ≤ address + widthOf code) :
    linked.lineBefore? a = some n := by
  induction a, hle using Nat.le_induction with
  | base => exact hline
  | succ a hle ih =>
      obtain ⟨i, hmem, hlabel, hi⟩ := exists_of_placed h hle (by omega)
      rw [lineBefore?, marker?_of_holds hi hlabel, hmarkers i hmem]
      exact ih (by omega)

end LinkedCode

open LinkedCode

/-- The code has no markers, and its branches stay in it or lead to what is outside. -/
structure StaysInLine (outside : List String) (code : List (Instruction R String)) : Prop where
  marker?_eq : ∀ i ∈ code, i.marker? = none
  jump_mem : ∀ i ∈ code, ∀ name, i.jump? = some name → name ∈ labelsOf code ∨ name ∈ outside

namespace StaysInLine

variable {outside outside' : List String} {code code' : List (Instruction R String)}

theorem mono (h : StaysInLine outside code) (hsub : outside ⊆ outside') :
    StaysInLine outside' code where
  marker?_eq := h.marker?_eq
  jump_mem i hi name hname := (h.jump_mem i hi name hname).imp_right fun hmem => hsub hmem

theorem append (h : StaysInLine outside code) (h' : StaysInLine outside' code') :
    StaysInLine (outside ++ outside') (code ++ code') where
  marker?_eq i hi := (List.mem_append.mp hi).elim (h.marker?_eq i) (h'.marker?_eq i)
  jump_mem i hi name hname := by
    rw [labelsOf_append, List.mem_append, List.mem_append]
    rcases List.mem_append.mp hi with hi | hi
    · exact (h.jump_mem i hi name hname).imp .inl .inl
    · exact (h'.jump_mem i hi name hname).imp .inr .inr

/-- Code that branches nowhere. -/
theorem of_plain (h : ∀ i ∈ code, i.marker? = none ∧ i.jump? = none) :
    StaysInLine outside code where
  marker?_eq i hi := (h i hi).1
  jump_mem i hi name hname := by
    rw [(h i hi).2] at hname
    cases hname

/-- Branches may lead to labels behind the code. -/
theorem close (h : StaysInLine outside code) (own : List String) (hlabels : own ⊆ labelsOf code)
    (hsub : outside ⊆ own ++ outside') : StaysInLine outside' code where
  marker?_eq := h.marker?_eq
  jump_mem i hi name hname := by
    rcases h.jump_mem i hi name hname with hmem | hmem
    · exact .inl hmem
    · exact (List.mem_append.mp (hsub hmem)).imp_left fun hown => hlabels hown

theorem map_reread [NumberSystem R] (h : StaysInLine outside code) :
    StaysInLine outside (code.map Instruction.reread) where
  marker?_eq := by
    intro i hi
    obtain ⟨i, hmem, rfl⟩ := List.mem_map.mp hi
    rw [Instruction.marker?_reread]
    exact h.marker?_eq i hmem
  jump_mem := by
    intro i hi name hname
    obtain ⟨i, hmem, rfl⟩ := List.mem_map.mp hi
    rw [Instruction.jump?_reread] at hname
    rw [labelsOf_map_reread]
    exact h.jump_mem i hmem name hname

end StaysInLine

variable [NumberSystem R]

namespace Expr

mutual

theorem plain_code : ∀ e : Expr R, ∀ i ∈ e.code, i.marker? = none ∧ i.jump? = none
  | number _ _ | string _ _ | char _ _ | var _ _ => by
      simp [code, Instruction.marker?, Instruction.jump?]
  | call _ _ args => by
      simpa [code, or_imp, forall_and, Instruction.marker?, Instruction.jump?] using
        plain_codeAll args
  | unary _ _ e => by
      simpa [code, or_imp, forall_and, Instruction.marker?, Instruction.jump?] using
        plain_code e
  | binary _ _ l r => by
      have hl := plain_code l
      have hr := plain_code r
      simp only [code, List.mem_append, List.mem_singleton]
      rintro i ((hi | hi) | rfl)
      · exact hl i hi
      · exact hr i hi
      · exact ⟨rfl, rfl⟩

theorem plain_codeAll : ∀ es : List (Expr R), ∀ i ∈ codeAll es,
    i.marker? = none ∧ i.jump? = none
  | [] => by simp [codeAll]
  | e :: es => by
      have he := plain_code e
      have hes := plain_codeAll es
      simp only [codeAll, List.mem_append]
      rintro i (hi | hi)
      · exact he i hi
      · exact hes i hi

end

end Expr

namespace Action

theorem staysInLine_loopCode (outside : List String) (place : Place) (v : Variable)
    (start limit : Expr R) (step : Option (Expr R)) :
    StaysInLine outside (Stmt.loopCode place v start limit step) := by
  refine .of_plain ?_
  have hstart := start.plain_code
  have hlimit := limit.plain_code
  cases step with
  | none =>
      simp only [Stmt.loopCode, List.mem_append, List.mem_cons, List.not_mem_nil, or_false]
      rintro i (((((hi | rfl) | hi) | rfl) | rfl) | rfl | rfl)
      · exact hstart i hi
      · exact ⟨rfl, rfl⟩
      · exact hlimit i hi
      all_goals exact ⟨rfl, rfl⟩
  | some step =>
      have hstep := step.plain_code
      simp only [Stmt.loopCode, List.mem_append, List.mem_cons, List.not_mem_nil, or_false]
      rintro i (((((hi | rfl) | hi) | rfl) | hi) | rfl | rfl)
      · exact hstart i hi
      · exact ⟨rfl, rfl⟩
      · exact hlimit i hi
      · exact ⟨rfl, rfl⟩
      · exact hstep i hi
      all_goals exact ⟨rfl, rfl⟩

mutual

theorem staysInLine_code (b : Nat) : ∀ a : Action R,
    StaysInLine (a.targets.map lineLabel) (a.code b).1
  | call name args => by
      refine .of_plain ?_
      simpa [code, or_imp, forall_and, Instruction.marker?, Instruction.jump?] using
        Expr.plain_codeAll args
  | .end | .return | rem | next none =>
      .of_plain (by simp [code, Instruction.marker?, Instruction.jump?])
  | next (some loop) => by
      rw [code_next]
      exact .of_plain (by simp [Stmt.nextCode, Instruction.marker?, Instruction.jump?])
  | assign name e => by
      refine .of_plain ?_
      simpa [code, or_imp, forall_and, Instruction.marker?, Instruction.jump?] using
        e.plain_code
  | .for loop start limit step => staysInLine_loopCode _ _ _ start limit step
  | gosub line | goto line => by
      constructor
      · simp [code, Instruction.marker?]
      · simp [code, Instruction.jump?, targets]
  | branch condition thenBody elseBody => by
      have hthen := staysInLine_codeAll (b + 1) thenBody
      have helse := staysInLine_codeAll (codeAll (b + 1) thenBody).2 elseBody
      have hcondition : StaysInLine [] condition.code := .of_plain condition.plain_code
      have htest : StaysInLine [Place.otherwise ⟨b + 1⟩]
          [(.ifNot (Place.otherwise ⟨b + 1⟩) : Instruction R String)] :=
        ⟨by simp [Instruction.marker?], by simp [Instruction.jump?]⟩
      have hjump : StaysInLine [Place.exit ⟨b + 1⟩]
          [(.jump (Place.exit ⟨b + 1⟩) : Instruction R String),
            .label (Place.otherwise ⟨b + 1⟩)] :=
        ⟨by simp [Instruction.marker?], by simp [Instruction.jump?]⟩
      have hlabel (name : String) :
          StaysInLine [] [(.label name : Instruction R String)] :=
        .of_plain (by simp [Instruction.marker?, Instruction.jump?])
      rw [code]
      dsimp only
      split
      · refine (((hcondition.append htest).append hthen).append (hlabel _)).close
          [Place.otherwise ⟨b + 1⟩] ?_ ?_
        · simp [labelsOf, Instruction.label?]
        · simp [targets]
      · refine (((((hcondition.append htest).append hthen).append hjump).append helse).append
          (hlabel _)).close [Place.otherwise ⟨b + 1⟩, Place.exit ⟨b + 1⟩] ?_ ?_
        · simp only [labelsOf_append]
          simp [labelsOf, Instruction.label?]
        · intro name
          simp only [targets, List.map_append, List.mem_append, List.mem_cons]
          tauto

theorem staysInLine_codeAll (b : Nat) : ∀ as : List (Action R),
    StaysInLine ((targetsAll as).map lineLabel) (codeAll b as).1
  | [] => .of_plain (by simp [codeAll])
  | a :: as =>
      ((staysInLine_code b a).append (staysInLine_codeAll (a.code b).2 as)).mono
        (by simp [targetsAll])

end

end Action

namespace LinkedCode

variable {linked : LinkedCode R} {b address : Nat} {lines : List (ActionLine R)}

theorem marker?_of_linesCode
    (hplaced : linked.Placed address ((Action.linesCode b lines).1.map Instruction.reread)) :
    ∀ line ∈ lines, ∃ t, linked.labels[lineLabel line.number]? = some t ∧
      linked.marker? t = some line.number := by
  induction lines generalizing b address with
  | nil => simp
  | cons line lines ih =>
      rw [Action.linesCode] at hplaced
      dsimp only at hplaced
      rw [List.map_append, placed_append, List.map_append, placed_append] at hplaced
      obtain ⟨⟨⟨hlabel, hmarker, -⟩, -⟩, hlines⟩ := hplaced
      rw [List.forall_mem_cons]
      exact ⟨⟨address, hlabel, marker?_of_holds hmarker rfl⟩, ih hlines⟩

theorem jump_of_linesCode
    (hplaced : linked.Placed address ((Action.linesCode b lines).1.map Instruction.reread))
    (hlabels : ∀ line ∈ lines, ∀ k ∈ Action.targetsAll line.actions,
      ∃ t, linked.labels[lineLabel k]? = some t ∧ linked.marker? t = some k)
    {a t : Nat} {j : Instruction R Nat} (hle : address ≤ a)
    (hlt : a < address + widthOf ((Action.linesCode b lines).1.map Instruction.reread))
    (hcode : linked.code[a]? = some j) (hjump : j.jump? = some t) :
    (linked.marker? t).isSome ∨ linked.lineBefore? t = linked.lineBefore? a := by
  induction lines generalizing b address with
  | nil =>
      have hwidth : widthOf ((Action.linesCode b ([] : List (ActionLine R))).1.map
          Instruction.reread) = 0 := rfl
      omega
  | cons line lines ih =>
      rw [Action.linesCode] at hplaced hlt
      dsimp only at hplaced hlt
      rw [List.map_append, List.map_append, widthOf_append, widthOf_append] at hlt
      rw [List.map_append, placed_append, List.map_append, placed_append, widthOf_append]
        at hplaced
      obtain ⟨⟨⟨-, hmarker, -⟩, hactions⟩, hlines⟩ := hplaced
      rw [List.forall_mem_cons] at hlabels
      have hfront : widthOf (([.label (lineLabel line.number), .line line.number] :
          List (Instruction R String)).map Instruction.reread) = 1 := rfl
      rw [hfront] at hactions hlines hlt
      have hmark : linked.marker? address = some line.number := marker?_of_holds hmarker rfl
      rcases Nat.lt_or_ge a (address + (1 + widthOf ((Action.codeAll b line.actions).1.map
        Instruction.reread))) with hin | hout
      · rcases Nat.eq_or_lt_of_le hle with rfl | hbehind
        · -- a marker is no branch
          rw [marker?, hcode] at hmark
          cases j <;> cases hmark
          cases hjump
        · have hstays := (Action.staysInLine_codeAll b line.actions).map_reread
          have hline : linked.lineBefore? (address + 1) = some line.number := by
            rw [lineBefore?, hmark]
            rfl
          have hsame (x : Nat) (hx : address + 1 ≤ x) (hx' : x ≤ address + 1 +
              widthOf ((Action.codeAll b line.actions).1.map Instruction.reread)) :=
            lineBefore?_of_placed hstays.marker?_eq hactions hline hx hx'
          obtain ⟨i, hmem, hlabel, hi⟩ := exists_of_placed hactions hbehind (by omega)
          rw [Holds, hlabel] at hi
          obtain ⟨j', hj', hcode'⟩ := hi
          rw [hcode] at hcode'
          cases hcode'
          obtain ⟨name, hname, hfind⟩ := Instruction.jump?_resolve hj' hjump
          have htarget := label_of_find hfind
          rcases hstays.jump_mem i hmem name hname with hown | hout
          · obtain ⟨t', ht', hle', hle''⟩ := label_of_placed hactions hown
            obtain rfl : t = t' := Option.some.inj (htarget.symm.trans ht')
            exact .inr ((hsame t hle' hle'').trans (hsame a hbehind (by omega)).symm)
          · obtain ⟨k, hk, rfl⟩ := List.mem_map.mp hout
            obtain ⟨t', ht', hmarked⟩ := hlabels.1 k hk
            obtain rfl : t = t' := Option.some.inj (htarget.symm.trans ht')
            exact .inl (hmarked ▸ rfl)
      · exact ih hlines hlabels.2 hout (by omega)

end LinkedCode

namespace Program

variable {p : Program R} {linked : LinkedCode R}

omit [NumberSystem R] in
theorem Coherent.number_mem_of_targets (h : p.Coherent) {line : ActionLine R}
    (hline : line ∈ p.actionLines) {k : LineNumber} (hk : k ∈ Action.targetsAll line.actions) :
    ∃ line ∈ p.actionLines, line.number = k := by
  have hmem : k ∈ Action.targetsAll p.actions := by
    rw [← flatMap_actionLines]
    exact mem_flatMap_of_append Action.targetsAll_append hline hk
  rw [actions, Stmt.targets_pairAll, targets_flatMap] at hmem
  obtain ⟨t, ht, rfl⟩ := List.mem_map.mp hmem
  have hnumber := h.targets_mem t ht
  rw [numbers, ← map_number_pairLines {} p.lines] at hnumber
  exact List.mem_map.mp hnumber

theorem Coherent.jump_within (h : p.Coherent)
    (hlink : link (p.layout.map Instruction.reread) = .ok linked) {a t : Nat}
    {j : Instruction R Nat} (hcode : linked.code[a]? = some j) (hjump : j.jump? = some t) :
    (linked.marker? t).isSome ∨ linked.lineBefore? t = linked.lineBefore? a := by
  have hplaced := placed_of_link hlink
  have hsize := size_of_link hlink
  rw [layout, Action.layout, List.map_append, List.map_append] at hplaced hsize
  rw [placed_append, placed_append, widthOf_append] at hplaced
  rw [widthOf_append, widthOf_append] at hsize
  obtain ⟨⟨-, hlines⟩, hend, -⟩ := hplaced
  have hentry : widthOf (([.label Script.entry] : List (Instruction R String)).map
      Instruction.reread) = 0 := rfl
  rw [hentry] at hlines hend hsize
  have hlast : widthOf (([.end] : List (Instruction R String)).map Instruction.reread) = 1 := rfl
  have hbound : a < linked.code.size := (Array.getElem?_eq_some_iff.mp hcode).1
  have hlt : a < 0 + 0 + widthOf ((Action.linesCode 0 p.actionLines).1.map
      Instruction.reread) := by
    by_contra hge
    -- the last instruction is an END
    obtain rfl : a = 0 + (0 + widthOf ((Action.linesCode 0 p.actionLines).1.map
      Instruction.reread)) := by omega
    have hcode' := code_of_holds hend rfl rfl
    rw [hcode] at hcode'
    cases hcode'
    cases hjump
  refine jump_of_linesCode hlines ?_ (by omega) hlt hcode hjump
  intro line hline k hk
  obtain ⟨line, hmem, rfl⟩ := h.number_mem_of_targets hline hk
  exact marker?_of_linesCode hlines line hmem

end Program

namespace Emission

omit [NumberSystem R]

def isLabel (piece : Emission R) : Bool :=
  match piece.instruction with
  | .ok i => i.label?.isSome
  | .error _ => false

def marker? (piece : Emission R) : Option LineNumber :=
  match piece.instruction with
  | .ok i => i.marker?
  | .error _ => none

/-- Pieces of code behind the marker of line `k` belong to the line of the last marker in front of them, if to any. -/
def Tagged : Option LineNumber → List (Emission R) → Prop
  | _, [] => True
  | k, piece :: rest =>
      match piece.marker? with
      | some n => piece.line = none ∧ Tagged (some n) rest
      | none => (∀ n, piece.line = some n → k = some n) ∧ Tagged k rest

theorem tagged_of_marker? {k : Option LineNumber} {piece : Emission R}
    {rest : List (Emission R)} (h : piece.marker? = none)
    (hline : ∀ n, piece.line = some n → k = some n) (hrest : Tagged k rest) :
    Tagged k (piece :: rest) := by
  rw [Tagged, h]
  exact ⟨hline, hrest⟩

theorem tagged_plain {n : LineNumber} {code : List (Instruction R String)}
    (h : ∀ i ∈ code, i.marker? = none) {rest : List (Emission R)}
    (hrest : Tagged (some n) rest) :
    Tagged (some n) ((Stmt.plain code).map
      (fun i => { instruction := i, line := some n : Emission R }) ++ rest) := by
  induction code with
  | nil => exact hrest
  | cons i code ih =>
      rw [List.forall_mem_cons] at h
      exact tagged_of_marker? h.1 (fun _ hline => hline) (ih h.2)

theorem tagged_lineEmissions [NumberSystem R] {tally : Tally} {loops : Loops}
    (h : tally.Matches loops) {lines : List (ProgramLine R)}
    (hpaired : (Program.pairLines loops lines).1.all fun line =>
      Action.allPaired line.actions) {rest : List (Emission R)} (hrest : ∀ k, Tagged k rest)
    (k : Option LineNumber) : Tagged k ((Program.lineEmissions tally lines).1 ++ rest) := by
  induction lines generalizing tally loops k with
  | nil => exact hrest k
  | cons line lines ih =>
      have hline := Stmt.agrees_codeAll h line.statements
      rw [Program.pairLines, List.all_cons, Bool.and_eq_true] at hpaired
      have hcode := hline.plain_of_paired hpaired.1
      have hstays := Action.staysInLine_codeAll tally.branches
        (Stmt.pairAll loops line.statements).1
      rw [Program.lineEmissions]
      dsimp only
      rw [hcode, List.append_assoc, List.cons_append, List.cons_append]
      refine tagged_of_marker? rfl (fun n hn => by cases hn) ⟨rfl, ?_⟩
      exact tagged_plain hstays.marker?_eq (ih hline.matches_loops hpaired.2 _)

theorem tagged_emissions [NumberSystem R] {p : Program R} (h : p.LoopsPair) :
    Tagged none p.emissions := by
  have hpaired := p.linesPaired_iff.mp h.1
  have hopened := (Program.agrees_lineEmissions Tally.Matches.start p.lines).matches_loops.2
  rw [h.2] at hopened
  dsimp only at hopened
  simp only [Program.emissions, hopened, List.map_nil, List.cons_append]
  refine tagged_of_marker? rfl (fun n hn => by cases hn) ?_
  refine tagged_lineEmissions Tally.Matches.start hpaired (fun k => ?_) none
  exact tagged_of_marker? rfl (fun n hn => by cases hn) trivial

theorem Tagged.lineBefore?_eq [NumberSystem R] {linked : LinkedCode R} {pieces : List (Emission R)}
    {k : Option LineNumber} (h : Tagged k pieces) {code : List (Instruction R String)}
    (hcode : pieces.map Emission.instruction = Stmt.plain code) {address : Nat}
    (hplaced : linked.Placed address (code.map Instruction.reread))
    (hk : linked.lineBefore? address = k) {a : Nat} {n : LineNumber}
    (hline : (pieces.filter fun piece => !piece.isLabel)[a]?.bind Emission.line = some n) :
    linked.marker? (address + a) = none ∧ linked.lineBefore? (address + a) = some n := by
  induction pieces generalizing k code address a with
  | nil => cases hline
  | cons piece rest ih =>
      cases code with
      | nil => cases hcode
      | cons i code =>
          rw [List.map_cons, Stmt.plain, List.map_cons, List.cons.injEq] at hcode
          obtain ⟨hpiece, hcode⟩ := hcode
          obtain ⟨hholds, hplaced⟩ := hplaced
          have hmarker : piece.marker? = i.marker? := by rw [marker?, hpiece]
          rw [Tagged, hmarker] at h
          cases hlabel : i.label? with
          | some name =>
              have hpieceLabel : piece.isLabel := by simp [isLabel, hpiece, hlabel]
              rw [List.filter_cons_of_neg (by simp [hpieceLabel])] at hline
              obtain rfl := Instruction.label?_eq_some_iff.mp hlabel
              exact ih h.2 hcode hplaced hk hline
          | none =>
              have hpieceLabel : piece.isLabel = false := by simp [isLabel, hpiece, hlabel]
              have hlabel' : i.reread.label? = none := by rwa [Instruction.label?_reread]
              have hmark := marker?_of_holds hholds hlabel'
              rw [Instruction.marker?_reread] at hmark
              rw [Instruction.label?_eq_none_iff.mp hlabel'] at hplaced
              rw [List.filter_cons_of_pos (by simp [hpieceLabel])] at hline
              cases hi : i.marker? with
              | some m =>
                  rw [hi] at h hmark
                  cases a with
                  | zero =>
                      rw [List.getElem?_cons_zero, Option.bind_some, h.1] at hline
                      cases hline
                  | succ a =>
                      have hbefore : linked.lineBefore? (address + 1) = some m := by
                        rw [lineBefore?, hmark]
                        rfl
                      rw [Nat.add_comm a, ← Nat.add_assoc]
                      exact ih h.2 hcode hplaced hbefore hline
              | none =>
                  rw [hi] at h hmark
                  cases a with
                  | zero =>
                      rw [List.getElem?_cons_zero, Option.bind_some] at hline
                      exact ⟨hmark, hk.trans (h.1 n hline)⟩
                  | succ a =>
                      have hbefore : linked.lineBefore? (address + 1) = k := by
                        rw [lineBefore?, hmark]
                        exact hk
                      rw [Nat.add_comm a, ← Nat.add_assoc]
                      exact ih h.2 hcode hplaced hbefore hline

end Emission

namespace Program

/-- The line of the statement that the instruction at an address stems from. -/
def lineAt? (p : Program R) (address : Nat) : Option LineNumber :=
  (p.emissions.filter fun piece => !piece.isLabel)[address]?.bind Emission.line

theorem lineBefore?_of_lineAt? {p : Program R} (h : p.LoopsPair) {linked : LinkedCode R}
    (hlink : link (p.layout.map Instruction.reread) = .ok linked) {a : Nat} {n : LineNumber}
    (hline : p.lineAt? a = some n) :
    linked.marker? a = none ∧ linked.lineBefore? a = some n := by
  have hpieces := (Emission.tagged_emissions h).lineBefore?_eq (emissions_of_loopsPair h)
    (placed_of_link hlink) rfl hline
  rwa [Nat.zero_add] at hpieces

end Program

end LineBasic
