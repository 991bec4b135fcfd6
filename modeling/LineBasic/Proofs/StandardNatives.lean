import LineBasic.Native
import LineBasic.Proofs.Safety

namespace LineBasic

variable {R W : Type}

/-- A native with its signature, under the name that both are known by. -/
structure Declared (R W : Type) where
  name : String
  signature : Signature
  native : Native R W

namespace Declared

/-- A native answers as its signature says. -/
def Honours (d : Declared R W) : Prop :=
  ∀ args w, d.signature.fits (args.map Value.type) → (d.native args w).1.Keeps d.signature.result

/-- Every native that is declared is bound, and answers as its signature says. -/
def AllBound (registry : Registry) (natives : Natives R W) : Prop :=
  ∀ name signature, registry.get? name = some signature →
    ∃ native, natives name = some native ∧ Honours ⟨name, signature, native⟩

theorem native?_bind (m : Machine R W) (name : String) (native : Native R W) (key : String) :
    (m.bind name native).native? key =
      if Text.upper name = key then some native else m.native? key := by
  simp only [Machine.native?, Machine.bind, Std.TreeMap.getElem?_insert,
    Std.LawfulEqCmp.compare_eq_iff_eq]

/-- Declaring and binding natives that honour their signatures leaves none
unbound. -/
theorem allBound_fold {all : List (Declared R W)} (h : ∀ d ∈ all, d.Honours)
    {registry : Registry} {m : Machine R W} (hm : AllBound registry m.native?) :
    AllBound (registry.declare (all.map fun d => (d.name, d.signature)))
      ((all.map fun d => (d.name, d.native)).foldl (fun m native => m.bind native.1 native.2)
        m).native? := by
  induction all generalizing registry m with
  | nil => exact hm
  | cons d all ih =>
      rw [List.forall_mem_cons] at h
      refine ih h.2 fun name signature hget => ?_
      rw [Registry.get?_insert] at hget
      rw [native?_bind]
      split at hget
      · rename_i hname
        cases hget
        exact ⟨d.native, if_pos hname, h.1⟩
      · rename_i hname
        rw [if_neg hname]
        exact hm name signature hget

theorem native?_fold {all : List (Declared R W)} {name : String}
    (h : ∀ d ∈ all, Text.upper d.name ≠ name) (m : Machine R W) :
    ((all.map fun d => (d.name, d.native)).foldl (fun m native => m.bind native.1 native.2)
      m).native? name = m.native? name := by
  induction all generalizing m with
  | nil => rfl
  | cons d all ih =>
      rw [List.forall_mem_cons] at h
      refine (ih h.2 _).trans ?_
      rw [native?_bind, if_neg h.1]

end Declared

variable [NumberSystem R]

namespace Builtin

omit [NumberSystem R] in
theorem exists_single {args : List (Value R)} {type : ValueType} {result : Option ValueType}
    (h : (Signature.mk 1 1 [type] result).fits (args.map Value.type)) :
    ∃ v, args = [v] ∧ v.type = type := by
  rcases args with _ | ⟨v, _ | ⟨v', args⟩⟩
  · simp [Signature.fits, Signature.accepts] at h
  · refine ⟨v, rfl, ?_⟩
    simpa [Signature.fits, Signature.accepts, Signature.takes, Signature.parameter?] using h
  · simp [Signature.fits, Signature.accepts] at h

def answer (result : Except Error (Value R)) : Answer R :=
  match result with
  | .ok v => .value v
  | .error e => .error e

omit [NumberSystem R] in
theorem keeps_value {v : Value R} {type : ValueType} (h : v.type = type) :
    (Answer.value v).Keeps (some type) := by
  intro result hresult
  cases hresult
  exact h

theorem keeps_apply (b : Builtin) (draw : R) {args : List (Value R)}
    (h : b.signature.fits (args.map Value.type)) :
    (answer (b.apply draw args)).Keeps b.signature.result := by
  cases b with
  | abs | int | sin | cos | str =>
      obtain ⟨v, rfl, hv⟩ := exists_single h
      obtain ⟨n, rfl⟩ := Value.exists_number hv
      exact keeps_value rfl
  | sqr =>
      obtain ⟨v, rfl, hv⟩ := exists_single h
      obtain ⟨n, rfl⟩ := Value.exists_number hv
      simp only [apply, firstNumber?, first?, Value.number?, bind, Except.bind]
      split
      · rfl
      · exact keeps_value rfl
  | rnd => exact keeps_value rfl
  | len =>
      obtain ⟨v, rfl, hv⟩ := exists_single h
      cases v with
      | number n => cases hv
      | string s => exact keeps_value rfl
  | chr =>
      obtain ⟨v, rfl, hv⟩ := exists_single h
      obtain ⟨n, rfl⟩ := Value.exists_number hv
      simp only [apply, firstNumber?, first?, Value.number?, bind, Except.bind]
      split
      · exact keeps_value rfl
      · rfl

end Builtin

namespace NativeSet

variable (console : Console W)

/-- The standard natives except for PRINT, with their signatures. -/
def standardRest : List (Declared R W) :=
  ⟨"CLS", .statement 0 0 [], writing console fun _ => clearScreen⟩ ::
    Builtin.all.map fun b => ⟨b.name, b.signature, builtin console b⟩

def allStandard : List (Declared R W) :=
  ⟨"PRINT", .statement 0 255 [], writing console printed⟩ :: standardRest console

omit [NumberSystem R] in
theorem keeps_writing [NumberSystem R] (text : List (Value R) → String)
    (args : List (Value R)) (w : W) : (writing console text args w).1.Keeps none := by
  intro type htype
  cases htype

theorem honours_builtin (b : Builtin) :
    (Declared.mk b.name b.signature (builtin console b : Native R W)).Honours := by
  intro args w hfits
  unfold builtin
  dsimp only
  generalize (if b = Builtin.rnd then console.random w else (0, w)) = drawn
  have hkeeps := b.keeps_apply (NumberSystem.ofFraction drawn.1) hfits
  revert hkeeps
  cases b.apply (NumberSystem.ofFraction drawn.1) args <;> exact id

theorem honours_allStandard : ∀ d ∈ (allStandard console : List (Declared R W)), d.Honours := by
  intro d hd
  simp only [allStandard, standardRest, List.mem_cons, List.mem_map] at hd
  rcases hd with rfl | rfl | ⟨b, -, rfl⟩
  · exact fun args w _ => keeps_writing console printed args w
  · exact fun args w _ => keeps_writing console (fun _ => clearScreen) args w
  · exact honours_builtin console b

theorem bindTo_standard (m : Machine R W) :
    (standard console).bindTo m = ((allStandard console).map fun d => (d.name, d.native)).foldl
      (fun m native => m.bind native.1 native.2) m := by
  simp only [bindTo, standard, allStandard, standardRest, List.map_cons, List.map_map, Function.comp_def]

theorem registry_standard :
    registry [standard (R := R) console] = Registry.empty.declare
      ((allStandard (R := R) console).map fun d => (d.name, d.signature)) := by
  simp only [registry, List.foldl_cons, List.foldl_nil, standard, allStandard, standardRest, List.map_cons,
    List.map_map, Function.comp_def]

theorem native?_standard_print (m : Machine R W) :
    ((standard console).bindTo m).native? "PRINT" = some (writing console printed) := by
  have hrest : ∀ d ∈ standardRest (R := R) console, Text.upper d.name ≠ "PRINT" := by
    simp only [standardRest, List.forall_mem_cons, List.forall_mem_map]
    decide +kernel
  have hupper : Text.upper "PRINT" = "PRINT" := by decide +kernel
  rw [bindTo_standard, allStandard, List.map_cons, List.foldl_cons, Declared.native?_fold hrest,
    Declared.native?_bind]
  exact if_pos hupper

/-- A machine with the standard natives honours what the compiler knows of
them. -/
theorem honour_standard (m : Machine R W) :
    ((standard console).bindTo m).native?.Honour (registry [standard (R := R) console]) where
  print := ⟨_, native?_standard_print console m, keeps_writing console printed⟩
  declared := by
    have hempty : Declared.AllBound Registry.empty m.native? := by
      intro name signature h
      rw [Registry.get?, Registry.empty, Std.TreeMap.getElem?_emptyc] at h
      cases h
    rw [bindTo_standard, registry_standard (R := R)]
    exact Declared.allBound_fold (honours_allStandard console) hempty

end NativeSet

def Console.keeping : Console String :=
  ⟨fun text w => w ++ text, fun w => (0, w)⟩

/-- What the compiler knows of the standard natives. -/
def Registry.standard : Registry :=
  NativeSet.registry [NativeSet.standard (R := Float) Console.keeping]

def Machine.standard : Machine Float String :=
  (NativeSet.standard Console.keeping).bindTo {}

end LineBasic
