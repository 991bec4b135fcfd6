import LineBasic.Proofs.Names
import LineBasic.Proofs.Operators

namespace LineBasic

variable {R : Type}

namespace Stmt

mutual

def Typed (registry : Registry) : Stmt R → Prop
  | call _ name args =>
      ∃ signature, registry.get? name = some signature ∧ signature.accepts args.length ∧
        Expr.checkArgs registry signature 0 args = .ok ()
  | .for _ v start limit step =>
      namesString v.name = false ∧ start.check registry = .ok .number ∧
        limit.check registry = .ok .number ∧ ∀ e ∈ step, e.check registry = .ok .number
  | .if _ condition thenBody elseBody =>
      condition.check registry = .ok .number ∧ AllTyped registry thenBody ∧
        AllTyped registry elseBody
  | .let _ v e => e.check registry = .ok (.ofName v.name)
  | print _ items => ∀ e ∈ items, ∃ type, e.check registry = .ok type
  | .end _ | gosub _ _ | goto _ _ | next _ _ | rem _ | .return _ => True

def AllTyped (registry : Registry) : List (Stmt R) → Prop
  | [] => True
  | s :: ss => s.Typed registry ∧ AllTyped registry ss

end

theorem allTyped_iff {registry : Registry} {ss : List (Stmt R)} :
    AllTyped registry ss ↔ ∀ s ∈ ss, s.Typed registry := by
  induction ss with
  | nil => simp [AllTyped]
  | cons s ss ih => simp [AllTyped, ih]

theorem allTyped_append {registry : Registry} {ss ss' : List (Stmt R)} :
    AllTyped registry (ss ++ ss') ↔ AllTyped registry ss ∧ AllTyped registry ss' := by
  simp [allTyped_iff, or_imp, forall_and]

end Stmt

namespace Expr

variable {registry : Registry} {e : Expr R}

theorem expectType_eq_ok {type found : ValueType} (h : e.expectType type found = .ok ()) :
    found = type := by
  unfold expectType at h
  split at h
  · assumption
  · cases h

theorem check_of_checkNumber (h : e.checkNumber registry = .ok ()) :
    e.check registry = .ok .number := by
  rw [checkNumber] at h
  obtain ⟨type, htype, hexpect⟩ := Stmt.bind_eq_ok h
  rw [htype, expectType_eq_ok hexpect]

theorem signature?_eq_ok {column : Column} {name : String} {count : Nat}
    {signature : Signature} (h : signature? registry column name count = .ok signature) :
    registry.get? name = some signature ∧ signature.accepts count := by
  unfold signature? at h
  split at h
  · cases h
  · split at h
    · cases h
      exact ⟨by assumption, by assumption⟩
    · cases h

end Expr

namespace Stmt

theorem typed_checkItems {registry : Registry} {items : List (Expr R)}
    (h : checkItems registry items = .ok ()) :
    ∀ e ∈ items, ∃ type, e.check registry = .ok type := by
  induction items with
  | nil => simp
  | cons e items ih =>
      rw [checkItems] at h
      obtain ⟨type, htype, h⟩ := bind_eq_ok h
      rw [List.forall_mem_cons]
      exact ⟨⟨type, htype⟩, ih h⟩

mutual

theorem typed_of_check {around : Surroundings} {opened opened' : List OpenLoop} :
    ∀ s : Stmt R, s.check around opened = .ok opened' → s.Typed around.registry
  | .end _, _ | gosub _ _, _ | goto _ _, _ | next _ _, _ | rem _, _ | .return _, _ => trivial
  | call column name args, h => by
      rw [check] at h
      obtain ⟨signature, hsignature, h⟩ := bind_eq_ok h
      obtain ⟨_, hargs, -⟩ := bind_eq_ok h
      obtain ⟨hget, haccepts⟩ := Expr.signature?_eq_ok hsignature
      exact ⟨signature, hget, haccepts, hargs⟩
  | print _ items, h => by
      rw [check] at h
      obtain ⟨_, hitems, -⟩ := bind_eq_ok h
      exact typed_checkItems hitems
  | .let _ v e, h => by
      rw [check] at h
      obtain ⟨type, htype, h⟩ := bind_eq_ok h
      obtain ⟨_, hexpect, -⟩ := bind_eq_ok h
      rw [Typed, htype, Expr.expectType_eq_ok hexpect]
  | .if _ condition thenBody elseBody, h => by
      rw [check] at h
      obtain ⟨_, hcondition, h⟩ := bind_eq_ok h
      obtain ⟨_, hthen, helse⟩ := bind_eq_ok h
      exact ⟨Expr.check_of_checkNumber hcondition, allTyped_of_checkAll thenBody hthen,
        allTyped_of_checkAll elseBody helse⟩
  | .for column v start limit step, h => by
      rw [check] at h
      split at h
      · cases h
      · rename_i hname
        obtain ⟨_, hstart, h⟩ := bind_eq_ok h
        obtain ⟨_, hlimit, h⟩ := bind_eq_ok h
        refine ⟨Bool.not_eq_true _ ▸ hname, Expr.check_of_checkNumber hstart,
          Expr.check_of_checkNumber hlimit, ?_⟩
        intro e he
        cases he
        obtain ⟨_, hstep, -⟩ := bind_eq_ok h
        exact Expr.check_of_checkNumber hstep

theorem allTyped_of_checkAll {around : Surroundings} {opened opened' : List OpenLoop} :
    ∀ ss : List (Stmt R), checkAll around opened ss = .ok opened' →
      AllTyped around.registry ss
  | [], _ => trivial
  | s :: ss, h => by
      rw [checkAll] at h
      obtain ⟨_, hs, hss⟩ := bind_eq_ok h
      exact ⟨typed_of_check s hs, allTyped_of_checkAll ss hss⟩

end

end Stmt

namespace Program

def Typed (registry : Registry) (p : Program R) : Prop :=
  ∀ line ∈ p.lines, Stmt.AllTyped registry line.statements

theorem typed_of_checkLines {registry : Registry} {numbers : List LineNumber}
    {opened opened' : List OpenLoop} {lines : List (ProgramLine R)}
    (h : checkLines registry numbers opened lines = .ok opened') :
    ∀ line ∈ lines, Stmt.AllTyped registry line.statements := by
  induction lines generalizing opened with
  | nil => simp
  | cons line lines ih =>
      rw [checkLines] at h
      split at h
      · cases h
      · rename_i hline
        rw [List.forall_mem_cons]
        exact ⟨Stmt.allTyped_of_checkAll _ hline, ih h⟩

theorem typed_of_check {registry : Registry} {p : Program R}
    (h : p.check registry = .ok ()) : p.Typed registry := by
  rw [check] at h
  obtain ⟨opened, hlines, -⟩ := Stmt.bind_eq_ok h
  exact typed_of_checkLines hlines

theorem typed_of_read [NumberSystem R] {registry : Registry} {source : String}
    {p : Program R} (h : read registry source = .ok p) : p.Typed registry := by
  obtain ⟨-, -, -, hcheck⟩ := read_eq_ok h
  exact typed_of_check hcheck

end Program

namespace Expr

variable {registry : Registry}

theorem check_unary_iff {op : UnaryOp} {column : Column} {e : Expr R} {type : ValueType} :
    (unary op column e).check registry = .ok type ↔
      e.check registry = .ok .number ∧ type = .number := by
  rw [check]
  constructor
  · intro h
    obtain ⟨found, hfound, h⟩ := Stmt.bind_eq_ok h
    obtain ⟨_, hexpect, h⟩ := Stmt.bind_eq_ok h
    cases h
    exact ⟨expectType_eq_ok hexpect ▸ hfound, rfl⟩
  · rintro ⟨he, rfl⟩
    rw [he]
    rfl

theorem check_binary_iff {op : BinaryOp} {column : Column} {l r : Expr R} {type : ValueType} :
    (binary op column l r).check registry = .ok type ↔
      ∃ left right, l.check registry = .ok left ∧ r.check registry = .ok right ∧
        op.resultType? left right = some type := by
  cases hl : l.check registry with
  | error e => cases op <;> simp [check, hl, bind, Except.bind]
  | ok left =>
      cases hr : r.check registry with
      | error e =>
          cases op <;> cases left <;>
            simp [check, hl, hr, expectType, bind, Except.bind]
      | ok right =>
          cases op <;> cases left <;> cases right <;>
            simp [check, hl, hr, expectType, BinaryOp.resultType?, bind, Except.bind, pure,
              Except.pure]

theorem check_of_literal? {e : Expr R} {v : Value R} (h : e.literal? = some v) :
    e.check registry = .ok v.type := by
  cases e with
  | number column n =>
      cases h
      rfl
  | string column s =>
      cases h
      rfl
  | _ => cases h

variable [NumberSystem R]

theorem foldAll_eq_map (es : List (Expr R)) : foldAll es = es.map fold := by
  induction es with
  | nil => rfl
  | cons e es ih => rw [foldAll, ih, List.map_cons]

theorem length_foldAll (es : List (Expr R)) : (foldAll es).length = es.length := by
  rw [foldAll_eq_map, List.length_map]

theorem check_orLiteral {e : Expr R} {type : ValueType} (he : e.check registry = .ok type)
    {result : Except Error (Value R)} (h : Yields type result) :
    (e.orLiteral result).check registry = .ok type := by
  cases result with
  | error error => exact he
  | ok v =>
      have htype : v.type = type := h
      subst htype
      cases v with
      | number n =>
          rw [orLiteral]
          split
          · rfl
          · exact he
      | string s => rfl

mutual

theorem check_fold : ∀ (e : Expr R) {type : ValueType}, e.check registry = .ok type →
    e.fold.check registry = .ok type
  | number _ _, _, h | string _ _, _, h | char _ _, _, h | var _ _, _, h => h
  | call column name args, type, h => by
      rw [check] at h
      obtain ⟨signature, hsignature, h⟩ := Stmt.bind_eq_ok h
      obtain ⟨_, hargs, h⟩ := Stmt.bind_eq_ok h
      rw [fold, check, length_foldAll, hsignature]
      simp only [bind, Except.bind, checkArgs_foldAll args hargs]
      exact h
  | unary op column e, type, h => by
      obtain ⟨he, rfl⟩ := check_unary_iff.mp h
      have hfold := check_fold e he
      rw [fold]
      split
      · rename_i v hv
        have htype : v.type = .number := by
          rw [check_of_literal? hv, Except.ok.injEq] at hfold
          exact hfold
        exact check_orLiteral (check_unary_iff.mpr ⟨hfold, rfl⟩) (op.yields_apply htype)
      · exact check_unary_iff.mpr ⟨hfold, rfl⟩
  | binary op column l r, type, h => by
      obtain ⟨left, right, hl, hr, htype⟩ := check_binary_iff.mp h
      have hfoldl := check_fold l hl
      have hfoldr := check_fold r hr
      have hboth : (binary op column l.fold r.fold).check registry = .ok type :=
        check_binary_iff.mpr ⟨left, right, hfoldl, hfoldr, htype⟩
      rw [fold]
      split
      · rename_i v w hv hw
        rw [check_of_literal? hv, Except.ok.injEq] at hfoldl
        rw [check_of_literal? hw, Except.ok.injEq] at hfoldr
        subst hfoldl hfoldr
        exact check_orLiteral hboth (BinaryOp.yields_apply htype)
      · exact hboth

theorem checkArgs_foldAll {signature : Signature} : ∀ (es : List (Expr R)) {index : Nat},
    checkArgs registry signature index es = .ok () →
    checkArgs registry signature index (foldAll es) = .ok ()
  | [], _, _ => rfl
  | e :: es, index, h => by
      rw [checkArgs] at h
      obtain ⟨found, hfound, h⟩ := Stmt.bind_eq_ok h
      rw [foldAll, checkArgs, check_fold e hfound]
      simp only [bind, Except.bind]
      cases hparameter : signature.parameter? index with
      | none =>
          rw [hparameter] at h
          exact checkArgs_foldAll es h
      | some type =>
          rw [hparameter] at h
          obtain ⟨_, hexpect, h⟩ := Stmt.bind_eq_ok h
          have htype := expectType_eq_ok hexpect
          simp only [expectType, if_pos htype]
          exact checkArgs_foldAll es h

end

end Expr

namespace Stmt

variable {registry : Registry} [NumberSystem R]

mutual

theorem typed_fold : ∀ s : Stmt R, s.Typed registry → s.fold.Typed registry
  | .end _, _ | gosub _ _, _ | goto _ _, _ | next _ _, _ | rem _, _ | .return _, _ => trivial
  | call column name args, h => by
      obtain ⟨signature, hget, haccepts, hargs⟩ := h
      refine ⟨signature, hget, ?_, Expr.checkArgs_foldAll args hargs⟩
      rwa [Expr.length_foldAll]
  | print _ items, h => by
      intro e he
      rw [Expr.foldAll_eq_map] at he
      obtain ⟨item, hitem, rfl⟩ := List.mem_map.mp he
      obtain ⟨type, htype⟩ := h item hitem
      exact ⟨type, item.check_fold htype⟩
  | .let _ v e, h => e.check_fold h
  | .if _ condition thenBody elseBody, h =>
      ⟨condition.check_fold h.1, allTyped_foldAll thenBody h.2.1,
        allTyped_foldAll elseBody h.2.2⟩
  | .for _ v start limit step, h => by
      refine ⟨h.1, start.check_fold h.2.1, limit.check_fold h.2.2.1, ?_⟩
      intro e he
      obtain ⟨e', he', rfl⟩ := Option.map_eq_some_iff.mp he
      exact e'.check_fold (h.2.2.2 e' he')

theorem allTyped_foldAll : ∀ ss : List (Stmt R), AllTyped registry ss →
    AllTyped registry (foldAll ss)
  | [], _ => trivial
  | s :: ss, h => ⟨typed_fold s h.1, allTyped_foldAll ss h.2⟩

end

mutual

theorem allTyped_tidy : ∀ s : Stmt R, s.Typed registry → AllTyped registry s.tidy
  | rem _, _ => trivial
  | .if column condition thenBody elseBody, h => by
      have hthen := allTyped_tidyAll false thenBody h.2.1
      have helse := allTyped_tidyAll false elseBody h.2.2
      have hif : AllTyped registry
          [.if column condition (tidyAll false thenBody) (tidyAll false elseBody)] :=
        ⟨⟨h.1, hthen, helse⟩, trivial⟩
      rcases tidy_if column condition thenBody elseBody with heq | ⟨-, heq | heq⟩ <;> rw [heq]
      · exact hif
      · exact hthen
      · exact helse
  | .let column v e, h => by
      rw [tidy_let]
      split
      · trivial
      · exact ⟨h, trivial⟩
  | call _ _ _, h | print _ _, h | .for _ _ _ _ _, h => ⟨h, trivial⟩
  | .end _, h | gosub _ _, h | goto _ _, h | next _ _, h | .return _, h => ⟨h, trivial⟩

theorem allTyped_tidyAll (dead : Bool) : ∀ ss : List (Stmt R), AllTyped registry ss →
    AllTyped registry (tidyAll dead ss)
  | [], _ => trivial
  | s :: ss, h => by
      have hss := fun dead => allTyped_tidyAll dead ss h.2
      rw [tidyAll]
      split
      · split
        · exact ⟨h.1, hss true⟩
        · exact hss true
      · exact allTyped_append.mpr ⟨allTyped_tidy s h.1, hss _⟩

end

end Stmt

namespace Program

variable {registry : Registry} {p : Program R} [NumberSystem R]

theorem Typed.fold (h : p.Typed registry) : p.fold.Typed registry := by
  intro line hline
  obtain ⟨source, hsource, rfl⟩ := List.mem_map.mp hline
  exact Stmt.allTyped_foldAll _ (h source hsource)

theorem Typed.tidy (h : p.Typed registry) : p.tidy.Typed registry := by
  intro line hline
  obtain ⟨source, hsource, rfl⟩ := List.mem_map.mp hline
  exact Stmt.allTyped_tidyAll false _ (h source hsource)

omit [NumberSystem R] in
theorem Typed.prune (h : p.Typed registry) (flow : Flow) : (flow.prune p).Typed registry :=
  fun line hline => h line (List.mem_of_mem_filter hline)

/-- What is known of a program that was read, and stays true of it while it is
compiled. -/
structure Sound (registry : Registry) (p : Program R) : Prop where
  coherent : p.Coherent
  typed : p.Typed registry
  isName : ∀ n ∈ p.names, IsName n
  number_le : ∀ n ∈ p.numbers, n ≤ maxLineNumber

theorem sound_of_read {source : String} (h : read registry source = .ok p) :
    p.Sound registry where
  coherent := coherent_of_read h
  typed := typed_of_read h
  isName := isName_of_read h
  number_le := number_le_of_read h

theorem Sound.folded (h : p.Sound registry) (flags : Flags) :
    (p.folded flags).Sound registry where
  coherent := h.coherent.folded flags
  typed := by
    unfold Program.folded
    split
    · exact h.typed.fold
    · exact h.typed
  isName n hn := h.isName n (names_folded flags hn)
  number_le n hn := h.number_le n (numbers_folded flags p ▸ hn)

theorem Sound.tidied (h : p.Sound registry) {flags : Flags}
    (hpair : (p.tidied flags).LoopsPair) : (p.tidied flags).Sound registry where
  coherent := h.coherent.tidied hpair
  typed := by
    have hfolded := (h.folded flags).typed
    unfold Program.tidied
    split
    · exact hfolded.tidy
    · exact hfolded
  isName n hn := h.isName n (names_tidied flags hn)
  number_le n hn := h.number_le n (numbers_tidied flags p ▸ hn)

omit [NumberSystem R] in
theorem Sound.prune (h : p.Sound registry) :
    ((Flow.ofProgram p).prune p).Sound registry where
  coherent := h.coherent.prune
  typed := h.typed.prune _
  isName n hn := h.isName n (names_prune _ hn)
  number_le n hn := by
    obtain ⟨line, hline, rfl⟩ := List.mem_map.mp hn
    exact h.number_le _ (List.mem_map_of_mem (List.mem_of_mem_filter hline))

/-- A program that compiles stays sound through all passes. -/
theorem Sound.optimize (h : p.Sound registry) {flags : Flags}
    (hpair : (p.tidied flags).LoopsPair) : (p.optimize flags).Sound registry := by
  rw [optimize_eq]
  exact (h.tidied hpair).prune

end Program

end LineBasic
