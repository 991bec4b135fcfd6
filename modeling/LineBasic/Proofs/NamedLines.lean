import LineBasic.Proofs.LineNames

namespace LineBasic

variable {R : Type} {f : LineNumber → LineNumber}

/-- An error under other line numbers, and in other columns: the line has its new number, and so has the text if it is the
number of a line. -/
structure Error.Renamed (f : LineNumber → LineNumber) (e e' : Error) : Prop where
  code : e'.code = e.code
  line : e'.line = e.line.map f
  text : e'.text = e.text ∨ ∃ n : LineNumber, e.text = toString n ∧ e'.text = toString (f n)

namespace Error

theorem renamed_of_line_eq_none {e : Error} (h : e.line = none) (column : Column) :
    e.Renamed f { e with column } := by
  refine ⟨rfl, ?_, .inl rfl⟩
  rw [h]
  rfl

theorem Renamed.orLine {e e' : Error} (h : e.Renamed f e') (n : LineNumber) :
    (e.orLine n).Renamed f (e'.orLine (f n)) := by
  have hline := h.line
  unfold Error.orLine
  cases he : e.line with
  | none =>
      rw [he] at hline
      rw [hline]
      exact ⟨h.code, rfl, h.text⟩
  | some m =>
      rw [he] at hline
      rw [hline]
      exact h

end Error

section Results

variable {ε α β γ δ : Type} {E : ε → ε → Prop} {P : α → β → Prop} {Q : γ → δ → Prop}

/-- Both results are values that are related, or errors that are. -/
inductive Agree (E : ε → ε → Prop) (P : α → β → Prop) : Except ε α → Except ε β → Prop where
  | ok {a : α} {b : β} (h : P a b) : Agree E P (.ok a) (.ok b)
  | error {e e' : ε} (h : E e e') : Agree E P (.error e) (.error e')

theorem agree_iff {x : Except ε α} {x' : Except ε β} :
    Agree E P x x' ↔ (∃ a b, x = .ok a ∧ x' = .ok b ∧ P a b) ∨
      ∃ e e', x = .error e ∧ x' = .error e' ∧ E e e' := by
  constructor
  · intro h
    cases h with
    | ok h => exact .inl ⟨_, _, rfl, rfl, h⟩
    | error h => exact .inr ⟨_, _, rfl, rfl, h⟩
  · rintro (⟨a, b, rfl, rfl, h⟩ | ⟨e, e', rfl, rfl, h⟩)
    · exact .ok h
    · exact .error h

theorem Agree.bind {x : Except ε α} {x' : Except ε β} {next : α → Except ε γ}
    {next' : β → Except ε δ} (h : Agree E P x x')
    (hnext : ∀ a b, P a b → Agree E Q (next a) (next' b)) :
    Agree E Q (x >>= next) (x' >>= next') := by
  cases h with
  | ok h => exact hnext _ _ h
  | error h => exact .error h

theorem Agree.imp_error {E' : ε → ε → Prop} {x : Except ε α} {x' : Except ε β} (h : Agree E P x x')
    (himp : ∀ e e', E e e' → E' e e') : Agree E' P x x' := by
  cases h with
  | ok h => exact .ok h
  | error h => exact .error (himp _ _ h)

/-- Both fail alike, or the second result is the image of the first one. -/
abbrev SameResult (f : LineNumber → LineNumber) (m : α → β) : Except Error α → Except Error β → Prop :=
  Agree (Error.Renamed f) fun a b => b = m a

theorem sameResult_ok (m : α → β) (a : α) : SameResult f m (.ok a) (.ok (m a)) :=
  .ok rfl

theorem sameResult_error (m : α → β) {e : Error} (h : e.line = none) (column : Column) :
    SameResult f m (.error e) (.error { e with column }) :=
  .error (Error.renamed_of_line_eq_none h column)

theorem SameResult.bind {m : α → β} {m' : γ → δ} {x : Except Error α} {x' : Except Error β}
    {next : α → Except Error γ} {next' : β → Except Error δ} (h : SameResult f m x x')
    (hnext : ∀ a, SameResult f m' (next a) (next' (m a))) :
    SameResult f m' (x >>= next) (x' >>= next') := by
  refine Agree.bind h fun a b hb => ?_
  subst hb
  exact hnext a

end Results

namespace Expr

theorem sameResult_expectType (type found : ValueType) (e e' : Expr R) :
    SameResult f id (e.expectType type found) (e'.expectType type found) := by
  unfold expectType
  split
  · exact sameResult_ok _ _
  · exact sameResult_error _ rfl _

theorem sameResult_signature? (registry : Registry) (column column' : Column) (name : String)
    (count : Nat) :
    SameResult f id (signature? registry column name count) (signature? registry column' name count) := by
  unfold signature?
  split
  · exact sameResult_error _ rfl _
  · split
    · exact sameResult_ok _ _
    · exact sameResult_error _ rfl _

mutual

theorem sameResult_check (registry : Registry) : ∀ e : Expr R,
    SameResult f id (e.check registry) (e.bare.check registry)
  | number _ _ | string _ _ | char _ _ | var _ _ => sameResult_ok _ _
  | call column name args => by
      rw [bare, check, check, length_bareAll]
      refine (sameResult_signature? registry _ _ name _).bind fun signature => ?_
      refine (sameResult_checkArgs registry signature 0 args).bind fun _ => ?_
      dsimp only [id]
      split
      · exact sameResult_ok _ _
      · exact sameResult_error _ rfl _
  | unary op column e => by
      rw [bare, check, check]
      refine (sameResult_check registry e).bind fun type => ?_
      exact (sameResult_expectType _ _ _ _).bind fun _ => sameResult_ok _ _
  | binary op column l r => by
      have hl := sameResult_check registry l
      have hr := sameResult_check registry r
      have hsame (type : ValueType → ValueType) : SameResult f id
          (l.check registry >>= fun left => r.check registry >>= fun right =>
            if left = right then .ok (type left) else .error (mismatch column))
          (l.bare.check registry >>= fun left => r.bare.check registry >>= fun right =>
            if left = right then .ok (type left) else .error (mismatch {})) := by
        refine hl.bind fun left => hr.bind fun right => ?_
        dsimp only [id]
        split
        · exact sameResult_ok _ _
        · exact sameResult_error _ rfl _
      have hnumbers : SameResult f id
          (l.check registry >>= fun left => l.expectType .number left >>= fun _ =>
            r.check registry >>= fun right => r.expectType .number right >>= fun _ =>
              .ok ValueType.number)
          (l.bare.check registry >>= fun left => l.bare.expectType .number left >>= fun _ =>
            r.bare.check registry >>= fun right => r.bare.expectType .number right >>= fun _ =>
              .ok ValueType.number) := by
        refine hl.bind fun left => (sameResult_expectType _ _ _ _).bind fun _ => ?_
        refine hr.bind fun right => (sameResult_expectType _ _ _ _).bind fun _ => ?_
        exact sameResult_ok _ _
      rw [bare]
      cases op with
      | add => exact hsame id
      | equal | notEqual | less | lessEqual | greater | greaterEqual => exact hsame fun _ => .number
      | _ => exact hnumbers

theorem sameResult_checkArgs (registry : Registry) (signature : Signature) (index : Nat) :
    ∀ es : List (Expr R), SameResult f id (checkArgs registry signature index es)
      (checkArgs registry signature index (bareAll es))
  | [] => sameResult_ok _ _
  | e :: es => by
      rw [bareAll, checkArgs, checkArgs]
      refine (sameResult_check registry e).bind fun found => ?_
      have hes := sameResult_checkArgs registry signature (index + 1) es
      dsimp only [id]
      split
      · exact (sameResult_expectType _ _ _ _).bind fun _ => hes
      · exact hes

end

end Expr

/-- An open loop without its column, its line under another name. -/
def OpenLoop.bare (f : LineNumber → LineNumber) (loop : OpenLoop) : OpenLoop :=
  { line := f loop.line, column := {}, name := loop.name }

namespace Stmt

mutual

theorem ownTargets_bare : ∀ s : Stmt R, (s.bare f).ownTargets = s.ownTargets.map (Target.bare f)
  | .end _ | gosub _ _ | goto _ _ | rem _ | .return _ => rfl
  | call _ _ _ | .let _ _ _ | print _ _ | .for _ _ _ _ _ | next _ _ => by
      rw [bare, ownTargets_of_plain (by simp) (by simp) (by simp),
        ownTargets_of_plain (by simp) (by simp) (by simp), List.map_nil]
  | .if _ _ thenBody elseBody => by
      rw [bare, ownTargets_if, ownTargets_if, targets_bareAll thenBody, targets_bareAll elseBody,
        List.map_append]

theorem targets_bareAll : ∀ ss : List (Stmt R),
    targets (bareAll f ss) = (targets ss).map (Target.bare f)
  | [] => rfl
  | s :: ss => by
      rw [bareAll, targets_cons, targets_cons, ownTargets_bare s, targets_bareAll ss, List.map_append]

end

/-- Surroundings under other line numbers, in which a target is found if and only if it was before. -/
structure SameLines (f : LineNumber → LineNumber) (ts : List Target) (around around' : Surroundings) :
    Prop where
  registry : around'.registry = around.registry
  line : around'.line = f around.line
  targets : ∀ t ∈ ts, around'.lines.contains (f t.line) = around.lines.contains t.line

theorem SameLines.sublist {ts ts' : List Target} {around around' : Surroundings}
    (h : SameLines f ts around around') (hts : ts' ⊆ ts) : SameLines f ts' around around' :=
  ⟨h.registry, h.line, fun t ht => h.targets t (hts ht)⟩

theorem sameResult_checkTarget {t : Target} {around around' : Surroundings}
    (h : SameLines f [t] around around') :
    SameResult f id (checkTarget around t) (checkTarget around' (t.bare f)) := by
  unfold checkTarget
  rw [show (t.bare f).line = f t.line from rfl, h.targets t List.mem_cons_self]
  split
  · exact sameResult_ok _ _
  · exact .error ⟨rfl, rfl, .inr ⟨t.line, rfl, rfl⟩⟩

theorem sameResult_checkItems (registry : Registry) (items : List (Expr R)) :
    SameResult f id (checkItems registry items) (checkItems registry (Expr.bareAll items)) := by
  induction items with
  | nil => exact sameResult_ok _ _
  | cons e items ih =>
      rw [Expr.bareAll, checkItems, checkItems]
      exact (Expr.sameResult_check registry e).bind fun _ => ih

theorem sameResult_checkNumber (registry : Registry) (e : Expr R) :
    SameResult f id (e.checkNumber registry) (e.bare.checkNumber registry) :=
  (Expr.sameResult_check registry e).bind fun _ => Expr.sameResult_expectType _ _ _ _

mutual

theorem sameResult_check {around around' : Surroundings} (loops : List OpenLoop) : ∀ s : Stmt R,
    SameLines f s.ownTargets around around' →
      SameResult f (List.map (OpenLoop.bare f)) (s.check around loops)
        ((s.bare f).check around' (loops.map (OpenLoop.bare f)))
  | .end _, _ | rem _, _ | .return _, _ => sameResult_ok _ _
  | goto _ t, h | gosub _ t, h => (sameResult_checkTarget h).bind fun _ => sameResult_ok _ _
  | print _ items, h => by
      rw [bare, check, check, h.registry]
      exact (sameResult_checkItems _ items).bind fun _ => sameResult_ok _ _
  | .let _ v e, h => by
      rw [bare, check, check, h.registry]
      refine (Expr.sameResult_check _ e).bind fun type => ?_
      exact (Expr.sameResult_expectType _ _ _ _).bind fun _ => sameResult_ok _ _
  | .if _ condition thenBody elseBody, h => by
      rw [ownTargets_if] at h
      rw [bare, check, check, h.registry]
      refine (sameResult_checkNumber _ condition).bind fun _ => ?_
      refine (sameResult_checkAll loops thenBody
        (h.sublist (List.subset_append_left _ _))).bind fun loops => ?_
      exact sameResult_checkAll loops elseBody (h.sublist (List.subset_append_right _ _))
  | .for column v start limit step, h => by
      rw [bare, check, check, h.registry, h.line, show v.bare.name = v.name from rfl]
      split
      · exact sameResult_error _ rfl _
      · refine (sameResult_checkNumber _ start).bind fun _ => ?_
        refine (sameResult_checkNumber _ limit).bind fun _ => ?_
        cases step with
        | none => exact sameResult_ok _ _
        | some step => exact (sameResult_checkNumber _ step).bind fun _ => sameResult_ok _ _
  | next column v, h => by
      cases loops with
      | nil => cases v <;> exact sameResult_error _ rfl _
      | cons loop loops =>
          cases v with
          | none => exact sameResult_ok (List.map (OpenLoop.bare f)) loops
          | some v =>
              show SameResult f (List.map (OpenLoop.bare f))
                (if loop.name = v.name then .ok loops else _)
                (if loop.name = v.name then .ok (loops.map (OpenLoop.bare f)) else _)
              split
              · exact sameResult_ok _ _
              · exact sameResult_error _ rfl _
  | call column name args, h => by
      rw [bare, check, check, h.registry, Expr.length_bareAll]
      refine (Expr.sameResult_signature? _ _ _ name _).bind fun signature => ?_
      refine (Expr.sameResult_checkArgs _ signature 0 args).bind fun _ => ?_
      exact sameResult_ok _ _

theorem sameResult_checkAll {around around' : Surroundings} (loops : List OpenLoop) :
    ∀ ss : List (Stmt R), SameLines f (targets ss) around around' →
      SameResult f (List.map (OpenLoop.bare f)) (checkAll around loops ss)
        (checkAll around' (loops.map (OpenLoop.bare f)) (bareAll f ss))
  | [], _ => sameResult_ok _ _
  | s :: ss, h => by
      rw [targets_cons] at h
      rw [bareAll, checkAll, checkAll]
      refine (sameResult_check loops s (h.sublist (List.subset_append_left _ _))).bind fun loops => ?_
      exact sameResult_checkAll loops ss (h.sublist (List.subset_append_right _ _))

end

end Stmt

namespace Program

theorem sameResult_checkLines {registry : Registry} {numbers : List LineNumber}
    {lines : List (ProgramLine R)} (loops : List OpenLoop)
    (htargets : ∀ t ∈ targetsOf lines,
      (numbers.map f).contains (f t.line) = numbers.contains t.line) :
    SameResult f (List.map (OpenLoop.bare f)) (checkLines registry numbers loops lines)
      (checkLines registry (numbers.map f) (loops.map (OpenLoop.bare f))
        (lines.map (ProgramLine.bare f))) := by
  induction lines generalizing loops with
  | nil => exact sameResult_ok (List.map (OpenLoop.bare f)) loops
  | cons line lines ih =>
      rw [targetsOf, List.flatMap_cons, List.forall_mem_append] at htargets
      have hline : SameResult f (List.map (OpenLoop.bare f))
          (Stmt.checkAll ⟨registry, numbers, line.number⟩ loops line.statements)
          (Stmt.checkAll ⟨registry, numbers.map f, (line.bare f).number⟩
            (loops.map (OpenLoop.bare f)) (line.bare f).statements) :=
        Stmt.sameResult_checkAll loops line.statements ⟨rfl, rfl, htargets.1⟩
      rw [List.map_cons, checkLines, checkLines]
      obtain ⟨opened, _, hx, hx', rfl⟩ | ⟨e, e', hx, hx', herror⟩ := agree_iff.mp hline
      · rw [hx, hx']
        exact ih opened htargets.2
      · rw [hx, hx']
        exact .error (herror.orLine line.number)

theorem numbers_bare (p : Program R) : (p.bare f).numbers = p.numbers.map f := by
  rw [numbers, numbers, Program.bare, List.map_map, List.map_map]
  rfl

/-- Under other line numbers a program is accepted, or refused alike, as it was before, as long as no target gets lost or
found. -/
theorem sameResult_check {registry : Registry} {p : Program R}
    (htargets : ∀ t ∈ targetsOf p.lines,
      (p.numbers.map f).contains (f t.line) = p.numbers.contains t.line) :
    SameResult f id (p.check registry) ((p.bare f).check registry) := by
  rw [check, check, numbers_bare]
  refine SameResult.bind (sameResult_checkLines [] htargets) fun opened => ?_
  cases opened with
  | nil => exact sameResult_ok _ _
  | cons loop opened => exact .error ⟨rfl, rfl, .inl rfl⟩

theorem check_bare_iff {registry : Registry} {p : Program R}
    (htargets : ∀ t ∈ targetsOf p.lines,
      (p.numbers.map f).contains (f t.line) = p.numbers.contains t.line) :
    (p.bare f).check registry = .ok () ↔ p.check registry = .ok () := by
  obtain ⟨_, _, hx, hx', rfl⟩ | ⟨e, e', hx, hx', -⟩ := agree_iff.mp (sameResult_check htargets)
  · rw [hx, hx']
  · rw [hx, hx']
    exact iff_of_false nofun nofun

def SetsApart (p : Program R) (f : LineNumber → LineNumber) : Prop :=
  ∀ n ∈ p.numbers, ∀ m ∈ p.numbers, f n = f m → n = m

end Program

namespace Flow

theorem leadsTo_bare (line : ProgramLine R) (back : List (ProgramLine R)) :
    leadsTo (line.bare f) ((back.map (ProgramLine.bare f)).head?.map ProgramLine.number) =
      (leadsTo line (back.head?.map ProgramLine.number)).map f := by
  have htargets : (Stmt.targets (line.bare f).statements).map Target.line =
      ((Stmt.targets line.statements).map Target.line).map f := by
    rw [ProgramLine.bare, Stmt.targets_bareAll, List.map_map, List.map_map]
    rfl
  have hlast : ((line.bare f).statements.getLast?.map Stmt.isTerminal) =
      line.statements.getLast?.map Stmt.isTerminal := by
    rw [ProgramLine.bare, ← List.getLast?_map, ← List.getLast?_map, Stmt.map_isTerminal_bareAll]
  rw [leadsTo, leadsTo, htargets, hlast]
  split
  · rfl
  · cases back <;> simp [ProgramLine.bare]

theorem seeds_bare (lines : List (ProgramLine R)) :
    seeds (lines.map (ProgramLine.bare f)) = (seeds lines).map f := by
  cases lines with
  | nil => rfl
  | cons first rest =>
      have hkept : ((fun line => Stmt.anyHasLoop line.statements) ∘ ProgramLine.bare f) =
          fun line : ProgramLine R => Stmt.anyHasLoop line.statements :=
        funext fun line => Stmt.anyHasLoop_bareAll line.statements
      rw [List.map_cons, seeds, seeds, List.map_cons, List.filter_map, hkept, List.map_map,
        List.map_map]
      rfl

variable {p : Program R}

theorem mem_numbers_of_seeds {n : LineNumber} (h : n ∈ seeds p.lines) : n ∈ p.numbers := by
  unfold Program.numbers
  cases hlines : p.lines with
  | nil =>
      rw [hlines] at h
      cases h
  | cons first rest =>
      rw [hlines, seeds, List.mem_cons] at h
      rcases h with rfl | h
      · exact List.mem_cons_self
      · exact List.mem_cons_of_mem _ ((List.filter_sublist.map _).mem h)

theorem mem_numbers_of_leadsTo (h : p.Coherent) {front back : List (ProgramLine R)}
    {line : ProgramLine R} (hlines : p.lines = front ++ line :: back) {target : LineNumber}
    (htarget : target ∈ leadsTo line (back.head?.map ProgramLine.number)) : target ∈ p.numbers := by
  have htargets : target ∈ (Stmt.targets line.statements).map Target.line → target ∈ p.numbers := by
    intro hmem
    obtain ⟨t, ht, rfl⟩ := List.mem_map.mp hmem
    exact h.targets_mem t (Program.mem_targetsOf.mpr ⟨line, by simp [hlines], ht⟩)
  unfold leadsTo at htarget
  split at htarget
  · exact htargets htarget
  · rcases List.mem_append.mp htarget with htarget | htarget
    · exact htargets htarget
    · cases back with
      | nil => cases htarget
      | cons next back =>
          rw [List.head?_cons, Option.map_some, Option.toList_some, List.mem_singleton] at htarget
          subst htarget
          exact List.mem_map_of_mem (by simp [hlines])

theorem isReachable_bare (h : p.Coherent) (hf : p.SetsApart f) {n : LineNumber}
    (hn : n ∈ p.numbers) : (ofProgram (p.bare f)).isReachable (f n) ↔ (ofProgram p).isReachable n := by
  have hnodup : (p.bare f).numbers.Nodup := by
    rw [Program.numbers_bare]
    exact List.pairwise_map.mpr
      (h.nodup.imp_of_mem fun {m k} hm hk hne heq => hne (hf m hm k hk heq))
  constructor
  · intro hkept
    -- every line that is kept under its new number was kept under its old one
    have hold : ∃ m ∈ p.numbers, f m = f n ∧ (ofProgram p).isReachable m := by
      refine isReachable_induction (P := fun k => ∃ m ∈ p.numbers, f m = k ∧
        (ofProgram p).isReachable m) ?_ ?_ hkept
      · intro k hk
        rw [Program.bare, seeds_bare] at hk
        obtain ⟨m, hm, rfl⟩ := List.mem_map.mp hk
        exact ⟨m, mem_numbers_of_seeds hm, rfl,
          Std.TreeSet.mem_iff_contains.mp ((ofProgram_spec p).1 m hm)⟩
      · intro front' line' back' hlines' hline' k hk
        obtain ⟨front, rest, hlines, -, hrest⟩ := List.map_eq_append_iff.mp hlines'
        obtain ⟨line, back, rfl, rfl, rfl⟩ := List.map_eq_cons_iff.mp hrest
        obtain ⟨m, hm, heq, hreached⟩ := hline'
        have hnumber : line.number ∈ p.numbers := List.mem_map_of_mem (by simp [hlines])
        obtain rfl := hf m hm line.number hnumber heq
        rw [leadsTo_bare] at hk
        obtain ⟨t, ht, rfl⟩ := List.mem_map.mp hk
        exact ⟨t, mem_numbers_of_leadsTo h hlines ht, rfl,
          isReachable_of_leadsTo h.nodup hlines hreached ht⟩
    obtain ⟨m, hm, heq, hreached⟩ := hold
    rwa [hf m hm n hn heq] at hreached
  · intro hkept
    refine isReachable_induction (P := fun k => (ofProgram (p.bare f)).isReachable (f k)) ?_ ?_ hkept
    · intro k hk
      refine Std.TreeSet.mem_iff_contains.mp ((ofProgram_spec (p.bare f)).1 (f k) ?_)
      rw [Program.bare, seeds_bare]
      exact List.mem_map_of_mem hk
    · intro front line back hlines hline k hk
      have hlines' : (p.bare f).lines = front.map (ProgramLine.bare f) ++
          line.bare f :: back.map (ProgramLine.bare f) := by
        rw [Program.bare, hlines, List.map_append, List.map_cons]
      refine isReachable_of_leadsTo hnodup hlines' hline ?_
      rw [leadsTo_bare]
      exact List.mem_map_of_mem hk

/-- Pruning works in the same way under other numbers. -/
theorem bare_prune (h : p.Coherent) (hf : p.SetsApart f) :
    ((ofProgram p).prune p).bare f = (ofProgram (p.bare f)).prune (p.bare f) := by
  simp only [prune, Program.bare, List.filter_map]
  congr 2
  refine List.filter_congr fun line hline => ?_
  exact Bool.eq_iff_iff.mpr (isReachable_bare h hf (List.mem_map_of_mem hline)).symm

end Flow

end LineBasic
