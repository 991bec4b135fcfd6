import LineBasic.Program.Checking
import LineBasic.Program.Flow

namespace LineBasic

variable {R : Type}

namespace Flow

/-- The targets of the edges whose line is not in the set yet: the search may
still come to add each of them to its work. -/
def pending (reached : Std.TreeSet LineNumber) :
    List (LineNumber × List LineNumber) → Nat
  | [] => 0
  | edge :: edges =>
      (if reached.contains edge.1 then 0 else edge.2.length) + pending reached edges

theorem weight_insert_le (reached : Std.TreeSet LineNumber) (line : LineNumber)
    (edge : LineNumber × List LineNumber) :
    (if (reached.insert line).contains edge.1 then 0 else edge.2.length) ≤
      if reached.contains edge.1 then 0 else edge.2.length := by
  split
  · exact Nat.zero_le _
  · rename_i hnew
    have hold : ¬reached.contains edge.1 := fun h =>
      hnew (by rw [Std.TreeSet.contains_insert, h, Bool.or_true])
    exact Nat.le_of_eq (if_neg hold).symm

theorem pending_insert_le (reached : Std.TreeSet LineNumber) (line : LineNumber)
    (edges : List (LineNumber × List LineNumber)) :
    pending (reached.insert line) edges ≤ pending reached edges := by
  induction edges with
  | nil => exact Nat.le_refl _
  | cons edge edges ih => exact Nat.add_le_add (weight_insert_le reached line edge) ih

theorem pending_insert_add_le {reached : Std.TreeSet LineNumber} {line : LineNumber}
    {targets : List LineNumber} {edges : List (LineNumber × List LineNumber)}
    (hedge : (line, targets) ∈ edges) (hnew : ¬reached.contains line) :
    pending (reached.insert line) edges + targets.length ≤ pending reached edges := by
  induction edges with
  | nil => cases hedge
  | cons edge edges ih =>
      rcases List.mem_cons.mp hedge with rfl | hmem
      · have hle := pending_insert_le reached line edges
        simp only [pending, Std.TreeSet.contains_insert_self, hnew, if_true,
          Bool.false_eq_true, if_false]
        omega
      · have hhead := weight_insert_le reached line edge
        have htail := ih hmem
        rw [pending, pending]
        omega

variable {successors : Std.TreeMap LineNumber (List LineNumber)}

/-- A set holds with each of its lines all that the line leads to, except for
what is among the work. -/
def ClosedUpTo (successors : Std.TreeMap LineNumber (List LineNumber))
    (work : List LineNumber) (reached : Std.TreeSet LineNumber) : Prop :=
  ∀ line ∈ reached, ∀ target ∈ (successors[line]?).getD [],
    target ∈ reached ∨ target ∈ work

/-- With enough fuel the search ends with a closed set that holds all it was
given. -/
theorem close_spec {edges : List (LineNumber × List LineNumber)}
    (hedges : ∀ line targets, successors[line]? = some targets → (line, targets) ∈ edges)
    {fuel : Nat} {work : List LineNumber} {reached : Std.TreeSet LineNumber}
    (hfuel : work.length + pending reached edges < fuel)
    (hclosed : ClosedUpTo successors work reached) :
    (∀ line, line ∈ reached ∨ line ∈ work → line ∈ close successors fuel work reached) ∧
      ClosedUpTo successors [] (close successors fuel work reached) := by
  induction fuel generalizing work reached with
  | zero => omega
  | succ fuel ih =>
      cases work with
      | nil => exact ⟨by simp [close], hclosed⟩
      | cons line work =>
          rw [List.length_cons] at hfuel
          rw [close]
          split
          · rename_i hold
            have hkept : ClosedUpTo successors work reached := by
              intro l hl target htarget
              rcases hclosed l hl target htarget with h | h
              · exact .inl h
              · rcases List.mem_cons.mp h with rfl | h
                · exact .inl (Std.TreeSet.mem_iff_contains.mpr hold)
                · exact .inr h
            obtain ⟨hmem, hclose⟩ := ih (by omega) hkept
            refine ⟨?_, hclose⟩
            rintro l (h | h)
            · exact hmem l (.inl h)
            · rcases List.mem_cons.mp h with rfl | h
              · exact hmem l (.inl (Std.TreeSet.mem_iff_contains.mpr hold))
              · exact hmem l (.inr h)
          · rename_i hnew
            have hfuel' : ((successors[line]?).getD [] ++ work).length +
                pending (reached.insert line) edges < fuel := by
              rw [List.length_append]
              cases hsucc : successors[line]? with
              | none =>
                  have hle := pending_insert_le reached line edges
                  simp only [Option.getD_none, List.length_nil]
                  omega
              | some targets =>
                  have hle := pending_insert_add_le (hedges line targets hsucc) hnew
                  simp only [Option.getD_some]
                  omega
            have hkept : ClosedUpTo successors ((successors[line]?).getD [] ++ work)
                (reached.insert line) := by
              intro l hl target htarget
              rw [Std.TreeSet.mem_insert, Std.LawfulEqCmp.compare_eq_iff_eq] at hl
              rw [Std.TreeSet.mem_insert, Std.LawfulEqCmp.compare_eq_iff_eq,
                List.mem_append]
              rcases hl with rfl | hl
              · exact .inr (.inl htarget)
              · rcases hclosed l hl target htarget with h | h
                · exact .inl (.inr h)
                · rcases List.mem_cons.mp h with rfl | h
                  · exact .inl (.inl rfl)
                  · exact .inr (.inr h)
            obtain ⟨hmem, hclose⟩ := ih hfuel' hkept
            refine ⟨?_, hclose⟩
            rintro l (h | h)
            · exact hmem l (.inl (Std.TreeSet.mem_insert.mpr (.inr h)))
            · rcases List.mem_cons.mp h with rfl | h
              · exact hmem l (.inl Std.TreeSet.mem_insert_self)
              · exact hmem l (.inr (List.mem_append_right _ h))

theorem foldl_length_eq_pending (edges : List (LineNumber × List LineNumber)) (count : Nat) :
    edges.foldl (fun count edge => count + edge.2.length) count = count + pending ∅ edges := by
  induction edges generalizing count with
  | nil => rfl
  | cons edge edges ih =>
      have hedge : (if (∅ : Std.TreeSet LineNumber).contains edge.1 then 0 else edge.2.length) =
          edge.2.length :=
        if_neg (by simp)
      rw [List.foldl_cons, ih, pending, hedge, Nat.add_assoc]

theorem edgeCount_eq (edges : List (LineNumber × List LineNumber)) :
    edgeCount edges = pending ∅ edges := by
  rw [edgeCount, foldl_length_eq_pending, Nat.zero_add]

private theorem getElem?_foldl_insert {edges : List (LineNumber × List LineNumber)}
    {m : Std.TreeMap LineNumber (List LineNumber)} {line : LineNumber}
    {targets : List LineNumber}
    (h : (edges.foldl (fun m edge => m.insert edge.1 edge.2) m)[line]? = some targets) :
    m[line]? = some targets ∨ (line, targets) ∈ edges := by
  induction edges generalizing m with
  | nil => exact .inl h
  | cons edge edges ih =>
      rcases ih h with h | h
      · rw [Std.TreeMap.getElem?_insert] at h
        split at h
        · rename_i heq
          rw [Std.LawfulEqCmp.compare_eq_iff_eq] at heq
          obtain ⟨_, _⟩ := edge
          simp_all
        · exact .inl h
      · exact .inr (List.mem_cons_of_mem _ h)

private theorem getElem?_foldl_insert_of_nodup {edges : List (LineNumber × List LineNumber)}
    {m : Std.TreeMap LineNumber (List LineNumber)} {line : LineNumber}
    {targets : List LineNumber} (hnodup : (edges.map Prod.fst).Nodup)
    (h : (line, targets) ∈ edges ∨ m[line]? = some targets ∧ line ∉ edges.map Prod.fst) :
    (edges.foldl (fun m edge => m.insert edge.1 edge.2) m)[line]? = some targets := by
  induction edges generalizing m with
  | nil =>
      rcases h with h | ⟨h, -⟩
      · cases h
      · exact h
  | cons edge edges ih =>
      rw [List.map_cons, List.nodup_cons] at hnodup
      refine ih hnodup.2 ?_
      rcases h with h | ⟨h, hnew⟩
      · rcases List.mem_cons.mp h with rfl | h
        · exact .inr ⟨Std.TreeMap.getElem?_insert_self, hnodup.1⟩
        · exact .inl h
      · rw [List.map_cons, List.mem_cons, not_or] at hnew
        refine .inr ⟨?_, hnew.2⟩
        rw [Std.TreeMap.getElem?_insert, if_neg]
        · exact h
        · rw [Std.LawfulEqCmp.compare_eq_iff_eq]
          exact fun heq => hnew.1 heq.symm

theorem map_fst_edges (lines : List (ProgramLine R)) :
    (edges lines).map Prod.fst = lines.map ProgramLine.number := by
  induction lines with
  | nil => rfl
  | cons line lines ih => simp [edges, ih]

theorem mem_edges (front : List (ProgramLine R)) (line : ProgramLine R)
    (back : List (ProgramLine R)) :
    (line.number, leadsTo line (back.head?.map ProgramLine.number)) ∈
      edges (front ++ line :: back) := by
  induction front with
  | nil => exact List.mem_cons_self
  | cons _ front ih => exact List.mem_cons_of_mem _ ih

/-- What the flow of a program keeps is closed and holds the seeds. -/
theorem ofProgram_spec (p : Program R) :
    (∀ line ∈ seeds p.lines, line ∈ (ofProgram p).reachable) ∧
      ClosedUpTo (ofProgram p).successors [] (ofProgram p).reachable := by
  have hedges : ∀ line targets,
      ((edges p.lines).foldl (fun m edge => m.insert edge.1 edge.2)
        (∅ : Std.TreeMap LineNumber (List LineNumber)))[line]? = some targets →
      (line, targets) ∈ edges p.lines :=
    fun line targets h => (getElem?_foldl_insert h).resolve_left (by simp)
  have hfuel : (seeds p.lines).length + pending ∅ (edges p.lines) <
      (seeds p.lines).length + edgeCount (edges p.lines) + 1 := by
    rw [edgeCount_eq]
    exact Nat.lt_succ_self _
  have hspec := close_spec hedges hfuel fun line h => absurd h Std.TreeSet.not_mem_emptyc
  exact ⟨fun line h => hspec.1 line (.inr h), hspec.2⟩

variable {p : Program R}

/-- A line with a FOR or a NEXT is kept. -/
theorem isReachable_of_anyHasLoop {line : ProgramLine R} (hmem : line ∈ p.lines)
    (hloop : Stmt.anyHasLoop line.statements) : (ofProgram p).isReachable line.number := by
  refine Std.TreeSet.mem_iff_contains.mp ((ofProgram_spec p).1 line.number ?_)
  unfold seeds
  split
  · simp_all
  · rename_i first rest hlines
    rw [hlines, List.mem_cons] at hmem
    rcases hmem with rfl | hmem
    · exact List.mem_cons_self
    · exact List.mem_cons_of_mem _
        (List.mem_map_of_mem (List.mem_filter.mpr ⟨hmem, hloop⟩))

theorem isReachable_first {line : ProgramLine R} {back : List (ProgramLine R)}
    (h : p.lines = line :: back) : (ofProgram p).isReachable line.number := by
  refine Std.TreeSet.mem_iff_contains.mp ((ofProgram_spec p).1 line.number ?_)
  rw [h]
  exact List.mem_cons_self

theorem successorsOf_eq (hnodup : p.numbers.Nodup) {front back : List (ProgramLine R)}
    {line : ProgramLine R} (hlines : p.lines = front ++ line :: back) :
    (ofProgram p).successorsOf line.number =
      leadsTo line (back.head?.map ProgramLine.number) := by
  have hlookup : (ofProgram p).successors[line.number]? =
      some (leadsTo line (back.head?.map ProgramLine.number)) := by
    refine getElem?_foldl_insert_of_nodup ?_ (.inl ?_)
    · rw [map_fst_edges]
      exact hnodup
    · rw [hlines]
      exact mem_edges front line back
  rw [successorsOf, hlookup, Option.getD_some]

theorem isReachable_of_mem_successorsOf {n target : LineNumber}
    (hkept : (ofProgram p).isReachable n) (htarget : target ∈ (ofProgram p).successorsOf n) :
    (ofProgram p).isReachable target := by
  have hclosed := (ofProgram_spec p).2 n (Std.TreeSet.mem_iff_contains.mpr hkept) target htarget
  exact Std.TreeSet.mem_iff_contains.mp (hclosed.resolve_right (by simp))

/-- With a line all that it leads to is kept. -/
theorem isReachable_of_leadsTo (hnodup : p.numbers.Nodup)
    {front back : List (ProgramLine R)} {line : ProgramLine R}
    (hlines : p.lines = front ++ line :: back)
    (hkept : (ofProgram p).isReachable line.number) {target : LineNumber}
    (htarget : target ∈ leadsTo line (back.head?.map ProgramLine.number)) :
    (ofProgram p).isReachable target := by
  rw [← successorsOf_eq hnodup hlines] at htarget
  exact isReachable_of_mem_successorsOf hkept htarget

/-- A line with a target is kept together with the line that the target names. -/
theorem isReachable_of_mem_targets (hnodup : p.numbers.Nodup) {line : ProgramLine R}
    (hmem : line ∈ p.lines) (hkept : (ofProgram p).isReachable line.number) {t : Target}
    (ht : t ∈ Stmt.targets line.statements) : (ofProgram p).isReachable t.line := by
  obtain ⟨front, back, hlines⟩ := List.append_of_mem hmem
  refine isReachable_of_leadsTo hnodup hlines hkept ?_
  have hline := List.mem_map_of_mem (f := Target.line) ht
  unfold leadsTo
  split
  · exact hline
  · exact List.mem_append_left _ hline

/-- Behind a line that does not end in an END, GOTO or RETURN the next line is
kept. -/
theorem isReachable_next (hnodup : p.numbers.Nodup) {front back : List (ProgramLine R)}
    {line next : ProgramLine R} (hlines : p.lines = front ++ line :: next :: back)
    (hkept : (ofProgram p).isReachable line.number)
    (hend : ¬(line.statements.getLast?.map Stmt.isTerminal).getD false) :
    (ofProgram p).isReachable next.number := by
  refine isReachable_of_leadsTo hnodup hlines hkept ?_
  rw [leadsTo, if_neg hend]
  exact List.mem_append_right _ (by simp)

/-- What holds of the lines of a search and goes on to all that they lead to holds of every line that it ends with. -/
theorem close_induction {successors : Std.TreeMap LineNumber (List LineNumber)} {P : LineNumber → Prop}
    (hnext : ∀ line targets, successors[line]? = some targets → P line → ∀ t ∈ targets, P t)
    {fuel : Nat} {work : List LineNumber} {reached : Std.TreeSet LineNumber}
    (hwork : ∀ line ∈ work, P line) (hreached : ∀ line ∈ reached, P line) :
    ∀ line ∈ close successors fuel work reached, P line := by
  induction fuel generalizing work reached with
  | zero => exact hreached
  | succ fuel ih =>
      cases work with
      | nil => exact hreached
      | cons line work =>
          rw [List.forall_mem_cons] at hwork
          rw [close]
          split
          · exact ih hwork.2 hreached
          · refine ih ?_ ?_
            · intro target htarget
              rcases List.mem_append.mp htarget with htarget | htarget
              · cases hsucc : successors[line]? with
                | none =>
                    rw [hsucc] at htarget
                    cases htarget
                | some targets =>
                    rw [hsucc] at htarget
                    exact hnext line targets hsucc hwork.1 target htarget
              · exact hwork.2 target htarget
            · intro target htarget
              rw [Std.TreeSet.mem_insert, Std.LawfulEqCmp.compare_eq_iff_eq] at htarget
              rcases htarget with rfl | htarget
              · exact hwork.1
              · exact hreached target htarget

theorem exists_of_mem_edges {lines : List (ProgramLine R)} {number : LineNumber}
    {targets : List LineNumber} (h : (number, targets) ∈ edges lines) :
    ∃ front line back, lines = front ++ line :: back ∧ line.number = number ∧
      leadsTo line (back.head?.map ProgramLine.number) = targets := by
  induction lines with
  | nil => cases h
  | cons line lines ih =>
      rw [edges, List.mem_cons] at h
      rcases h with heq | h
      · cases heq
        exact ⟨[], line, lines, rfl, rfl, rfl⟩
      · obtain ⟨front, line', back, rfl, hline⟩ := ih h
        exact ⟨line :: front, line', back, rfl, hline⟩

/-- What holds of the seeds of a program and goes on from a line to all that it leads to holds of every line that is
kept. -/
theorem isReachable_induction {P : LineNumber → Prop} (hseeds : ∀ n ∈ seeds p.lines, P n)
    (hnext : ∀ front line back, p.lines = front ++ line :: back → P line.number →
      ∀ target ∈ leadsTo line (back.head?.map ProgramLine.number), P target)
    {n : LineNumber} (h : (ofProgram p).isReachable n) : P n := by
  refine close_induction ?_ hseeds (fun line hline => absurd hline Std.TreeSet.not_mem_emptyc) n
    (Std.TreeSet.mem_iff_contains.mpr h)
  intro number targets hsucc hnumber
  obtain ⟨front, line, back, hlines, rfl, rfl⟩ :=
    exists_of_mem_edges ((getElem?_foldl_insert hsucc).resolve_left (by simp))
  exact hnext front line back hlines hnumber

end Flow

end LineBasic
