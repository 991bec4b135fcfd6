import LineBasic.Proofs.LineMarks
import LineBasic.Proofs.Soundness

namespace LineBasic

variable {R W : Type}

/-- If the result is an error, then one that names no line. -/
def Unplaced {α : Type} (x : Except Error α) : Prop :=
  ∀ e, x = .error e → e.line = none

namespace Unplaced

variable {α β : Type}

theorem ok (a : α) : Unplaced (.ok a) := by
  intro e he
  cases he

theorem error {e : Error} (h : e.line = none) : Unplaced (.error e : Except Error α) := by
  intro e' he
  cases he
  exact h

theorem bind {x : Except Error α} (hx : Unplaced x) {f : α → Except Error β}
    (hf : ∀ a, Unplaced (f a)) : Unplaced (x >>= f) := by
  cases x with
  | error e => exact error (hx e rfl)
  | ok a => exact hf a

end Unplaced

namespace Value

theorem unplaced_number? (v : Value R) : Unplaced v.number? := by
  cases v with
  | number n => exact .ok n
  | string s => exact .error rfl

variable [NumberSystem R]

theorem unplaced_isTrue? (v : Value R) : Unplaced v.isTrue? :=
  v.unplaced_number?.bind fun _ => .ok _

theorem unplaced_word? (v : Value R) : Unplaced v.word? := by
  refine v.unplaced_number?.bind fun n => ?_
  split
  · exact .ok _
  · exact .error rfl

theorem unplaced_finite (n : R) : Unplaced (finite n) := by
  unfold finite
  split
  · exact .ok _
  · exact .error rfl

theorem unplaced_compare? (x y : Value R) : Unplaced (x.compare? y) := by
  unfold compare?
  split
  · exact .ok _
  · split
    · exact .ok _
    · exact .error rfl
  · exact .error rfl

theorem unplaced_power (x y : Value R) : Unplaced (x.power y) := by
  refine x.unplaced_number?.bind fun m => y.unplaced_number?.bind fun n => ?_
  split
  · exact .error rfl
  · split
    · exact .error rfl
    · exact unplaced_finite _

theorem unplaced_divide (x y : Value R) : Unplaced (x.divide y) := by
  refine y.unplaced_number?.bind fun n => ?_
  split
  · exact .error rfl
  · exact x.unplaced_number?.bind fun m => unplaced_finite _

theorem unplaced_modulus (x y : Value R) : Unplaced (x.modulus y) := by
  refine x.unplaced_word?.bind fun m => y.unplaced_word?.bind fun n => ?_
  split
  · exact .error rfl
  · split
    · exact .error rfl
    · exact .ok _

theorem unplaced_add (x y : Value R) : Unplaced (x.add y) := by
  unfold add
  split
  · exact .ok _
  · exact unplaced_finite _
  · exact .error rfl

end Value

section

variable [NumberSystem R]

theorem UnaryOp.unplaced_apply (op : UnaryOp) (x : Value R) : Unplaced (op.apply x) := by
  cases op with
  | negate => exact x.unplaced_number?.bind fun _ => .ok _
  | not => exact x.unplaced_word?.bind fun _ => .ok _

theorem BinaryOp.unplaced_apply (op : BinaryOp) (x y : Value R) : Unplaced (op.apply x y) := by
  cases op with
  | power => exact x.unplaced_power y
  | divide => exact x.unplaced_divide y
  | modulus => exact x.unplaced_modulus y
  | add => exact x.unplaced_add y
  | multiply | subtract =>
      exact x.unplaced_number?.bind fun _ => y.unplaced_number?.bind fun _ =>
        Value.unplaced_finite _
  | and | or => exact x.unplaced_word?.bind fun _ => y.unplaced_word?.bind fun _ => .ok _
  | equal | notEqual | less | lessEqual | greater | greaterEqual =>
      exact (x.unplaced_compare? y).bind fun _ => .ok _

end

namespace Stack

variable {α : Type}

theorem unplaced_push (a : α) (s : Stack α) : Unplaced (s.push a) := by
  unfold push
  split
  · exact .ok _
  · exact .error rfl

theorem unplaced_pop (s : Stack α) : Unplaced s.pop.1 := by
  unfold pop
  split
  · exact .error rfl
  · exact .ok _

theorem unplaced_pop2 (s : Stack α) : Unplaced s.pop2.1 := by
  have hfirst := s.unplaced_pop
  unfold pop2
  split
  · rename_i e s' h
    rw [h] at hfirst
    exact .error (hfirst e rfl)
  · rename_i second s' h
    have hsecond := s'.unplaced_pop
    split
    · rename_i e s' h
      rw [h] at hsecond
      exact .error (hsecond e rfl)
    · exact .ok _

theorem unplaced_popN (count : Nat) (s : Stack α) : Unplaced (s.popN count).1 := by
  unfold popN
  split
  · exact .ok _
  · exact .error rfl

end Stack

namespace Instruction

/-- Where an instruction at an address may lead. -/
def Leads (i : Instruction R Nat) (address address' : Nat) : Prop :=
  address' = address + 1 ∨ i.jump? = some address' ∨ i = .return ∨
    ∃ var limit step, i = .next var limit step address'

end Instruction

/-- Where a run is behind an instruction: it has passed a marker if that was one, or has failed in the line it was in. -/
def Progress.Follows (i : Instruction R Nat) (address : Nat) (line : Option LineNumber) :
    Progress R → Prop
  | .running r => r.line = i.marker?.or line ∧ i.Leads address r.address
  | .ended (.failed e) _ => e.line = line
  | .ended _ _ => True

/-- The errors of natives name no line of their own. -/
def Machine.NativesUnplaced (m : Machine R W) : Prop :=
  ∀ (name : String) (native : Native R W), m.natives[name]? = some native →
    ∀ args w e, (native args w).1 = .error e → e.line = none

section

variable {i : Instruction R Nat} {address : Nat} {line : Option LineNumber} {r : Registers R}

theorem follows_fail {e : Error} (he : e.line = none) (hline : r.line = line) :
    (r.fail e).Follows i address line := by
  rw [Registers.fail, Progress.Follows, Error.orLine_line, he, hline]
  rfl

theorem follows_forward (hmarker : i.marker? = none) (hline : r.line = line)
    (haddress : r.address = address + 1) : (Progress.running r).Follows i address line := by
  rw [Progress.Follows, hmarker]
  exact ⟨hline, .inl haddress⟩

theorem follows_jump (hmarker : i.marker? = none) (hline : r.line = line)
    (hjump : i.jump? = some r.address) : (Progress.running r).Follows i address line := by
  rw [Progress.Follows, hmarker]
  exact ⟨hline, .inr (.inl hjump)⟩

theorem follows_pushing (hmarker : i.marker? = none) (v : Value R) (hline : r.line = line)
    (haddress : r.address = address + 1) : (r.pushing v).Follows i address line := by
  have hpush := r.stack.unplaced_push v
  unfold Registers.pushing
  split
  · exact follows_forward hmarker hline haddress
  · rename_i e he
    exact follows_fail (hpush e he) hline

theorem follows_pushingResult (hmarker : i.marker? = none) {result : Except Error (Value R)}
    (hresult : Unplaced result) (hline : r.line = line) (haddress : r.address = address + 1) :
    (r.pushingResult result).Follows i address line := by
  cases result with
  | ok v => exact follows_pushing hmarker v hline haddress
  | error e => exact follows_fail (hresult e rfl) hline

end

namespace Machine

variable {m : Machine R W} {i : Instruction R Nat} {address : Nat} {line : Option LineNumber}

theorem follows_polling {next : Progress R} (h : next.Follows i address line) {r : Registers R}
    (hline : r.line = line) (w : W) : (m.polling r w next).1.Follows i address line := by
  unfold polling
  split
  · exact follows_fail rfl hline
  · exact h

theorem follows_pollingBack {next : Progress R} (h : next.Follows i address line) (target : Nat)
    {r : Registers R} (hline : r.line = line) (w : W) :
    (m.pollingBack target r w next).1.Follows i address line := by
  unfold pollingBack
  split
  · exact follows_polling h hline w
  · exact h

theorem follows_callNative (hm : m.NativesUnplaced) (name : String) (count : Nat)
    {keep : Value R → Registers R → Progress R} (r : Registers R)
    (hkeep : ∀ (v : Value R) (r' : Registers R), r'.line = r.line →
      r'.address = r.address + 1 → (keep v r').Follows i r.address r.line) (w : W) :
    (m.callNative name count keep r w).1.Follows i r.address r.line := by
  have hpop := r.stack.unplaced_popN count
  unfold callNative
  split
  · rename_i e stack h
    rw [h] at hpop
    exact follows_fail (hpop e rfl) rfl
  · rename_i args stack h
    dsimp only
    split
    · exact follows_fail rfl rfl
    · rename_i native hnative
      have hanswer := hm name native hnative args w
      split
      · exact hkeep _ _ rfl rfl
      · rename_i e w' h
        rw [h] at hanswer
        exact follows_fail (hanswer e rfl) rfl
      · trivial

variable [NumberSystem R]

theorem follows_loop (var limit step : String) (body : Nat) (r : Registers R) (w : W) :
    (m.loop var limit step body r w).1.Follows (.next var limit step body) r.address r.line := by
  have hread (name : String) : Unplaced (r.readNumber name) := by
    unfold Registers.readNumber
    split
    · exact Value.unplaced_number? _
    · exact .ok _
  unfold loop
  extract_lets numbers
  have hnumbers : Unplaced numbers :=
    (hread limit).bind fun _ => (hread step).bind fun _ => (hread var).bind fun _ => .ok _
  cases hcases : numbers with
  | error e =>
      rw [hcases] at hnumbers
      exact follows_fail (hnumbers e rfl) rfl
  | ok read =>
      have hback (value : R) :
          (m.polling (r.assign var (.number value)) w
            (.running ((r.assign var (.number value)).goTo body))).1.Follows
              (.next var limit step body) r.address r.line :=
        follows_polling (show Progress.Follows _ _ _ (.running _) from
          ⟨rfl, .inr (.inr (.inr ⟨var, limit, step, rfl⟩))⟩) rfl w
      have hforward (value : R) :
          (Progress.running (r.assign var (.number value)).forward).Follows
            (.next var limit step body : Instruction R Nat) r.address r.line :=
        follows_forward rfl rfl rfl
      dsimp only
      split <;> split
      · exact hback _
      · exact hforward _
      · exact hback _
      · exact hforward _

theorem follows_execute (hm : m.NativesUnplaced) (i : Instruction R Nat) (r : Registers R) (w : W) :
    (m.execute i r w).1.Follows i r.address r.line := by
  cases i with
  | label name => exact follows_forward rfl rfl rfl
  | line number => exact ⟨rfl, .inl rfl⟩
  | literal v => exact follows_pushing rfl v rfl rfl
  | push name => exact follows_pushing rfl _ rfl rfl
  | pop name =>
      have hpop := r.stack.unplaced_pop
      simp only [execute]
      split
      · rename_i e stack h
        rw [h] at hpop
        exact follows_fail (hpop e rfl) rfl
      · split
        · exact follows_forward rfl rfl rfl
        · exact follows_fail rfl rfl
  | jump target =>
      refine follows_pollingBack ?_ target rfl w
      exact follows_jump rfl rfl rfl
  | ifNot target =>
      have hpop := r.stack.unplaced_pop
      simp only [execute]
      split
      · rename_i e stack h
        rw [h] at hpop
        exact follows_fail (hpop e rfl) rfl
      · rename_i v stack h
        have htrue := v.unplaced_isTrue?
        split
        · rename_i e h
          exact follows_fail (htrue e h) rfl
        · exact follows_forward rfl rfl rfl
        · exact follows_jump rfl rfl rfl
  | gosub target =>
      have hpush := r.returns.unplaced_push (r.address + 1)
      refine follows_pollingBack ?_ target rfl w
      split
      · exact follows_jump rfl rfl rfl
      · rename_i e h
        exact follows_fail (hpush e h) rfl
  | «return» =>
      simp only [execute]
      split
      · exact ⟨rfl, .inr (.inr (.inl rfl))⟩
      · exact follows_fail rfl rfl
  | next var limit step body => exact follows_loop var limit step body r w
  | «end» => trivial
  | call name count =>
      exact follows_callNative hm name count r (fun v _ => follows_pushing rfl v) w
  | exec name count =>
      exact follows_callNative hm name count r (fun _ _ => follows_forward rfl) w
  | unary op =>
      have hpop := r.stack.unplaced_pop
      simp only [execute]
      split
      · rename_i e stack h
        rw [h] at hpop
        exact follows_fail (hpop e rfl) rfl
      · exact follows_pushingResult rfl (op.unplaced_apply _) rfl rfl
  | binary op =>
      have hpop := r.stack.unplaced_pop2
      simp only [execute]
      split
      · rename_i e stack h
        rw [h] at hpop
        exact follows_fail (hpop e rfl) rfl
      · exact follows_pushingResult rfl (op.unplaced_apply _ _) rfl rfl

theorem follows_step (hm : m.NativesUnplaced) {r : Registers R} {i : Instruction R Nat}
    (hi : m.linked.code[r.address]? = some i) (w : W) :
    (m.step r w).1.Follows i r.address r.line := by
  unfold step
  rw [hi]
  dsimp only
  split
  · split
    · exact follows_fail rfl rfl
    · exact follows_execute hm i _ _
  · exact follows_execute hm i _ w

end Machine

/-- A RETURN or a NEXT goes from one line into the middle of another. -/
def LinkedCode.Strays (linked : LinkedCode R) (address address' : Nat) : Prop :=
  (linked.code[address]? = some .return ∨
      ∃ var limit step body, linked.code[address]? = some (.next var limit step body)) ∧
    linked.marker? address' = none ∧ linked.lineBefore? address' ≠ linked.lineBefore? address

section

variable [NumberSystem R] (m : Machine R W) (start : Registers R × W)

/-- The line whose marker a run has passed last. -/
inductive Machine.Entered : Option LineNumber → Registers R × W → Prop where
  | start : Entered none start
  | marker {k : Option LineNumber} {n : LineNumber} {s s' : Registers R × W} : Entered k s →
      m.linked.marker? s.1.address = some n → m.process.step s = .inl s' → Entered (some n) s'
  | other {k : Option LineNumber} {s s' : Registers R × W} : Entered k s →
      m.linked.marker? s.1.address = none → m.process.step s = .inl s' → Entered k s'

/-- A run has not strayed since it passed a marker. -/
inductive Machine.Settled : Registers R × W → Prop where
  | marker {s s' : Registers R × W} : m.process.Reaches start s →
      (m.linked.marker? s.1.address).isSome → m.process.step s = .inl s' → Settled s'
  | other {s s' : Registers R × W} : Settled s → m.process.step s = .inl s' →
      ¬m.linked.Strays s.1.address s'.1.address → Settled s'

end

namespace Machine

variable [NumberSystem R] {m : Machine R W} {start s s' : Registers R × W}

theorem follows_of_step (hm : m.NativesUnplaced) (h : m.process.step s = .inl s') :
    ∃ i, m.linked.code[s.1.address]? = some i ∧
      s'.1.line = i.marker?.or s.1.line ∧ i.Leads s.1.address s'.1.address := by
  obtain ⟨r, w⟩ := s
  obtain ⟨r', w'⟩ := s'
  have hstep : m.step r w = (.running r', w') := by
    simp only [process] at h
    split at h <;> cases h
    assumption
  cases hi : m.linked.code[r.address]? with
  | none => simp [step, hi] at hstep
  | some i =>
      have hfollows := follows_step hm hi w
      rw [hstep] at hfollows
      exact ⟨i, rfl, hfollows⟩

theorem line_of_step (hm : m.NativesUnplaced) (h : m.process.step s = .inl s') :
    s'.1.line = (m.linked.marker? s.1.address).or s.1.line := by
  obtain ⟨i, hi, hline, -⟩ := follows_of_step hm h
  rw [hline, LinkedCode.marker?, hi]
  rfl

theorem Entered.line_eq (hm : m.NativesUnplaced) (hstart : start.1.line = none)
    {k : Option LineNumber} (h : m.Entered start k s) : s.1.line = k := by
  induction h with
  | start => exact hstart
  | marker _ hmarker hstep _ => rw [line_of_step hm hstep, hmarker, Option.some_or]
  | other _ hmarker hstep ih => rw [line_of_step hm hstep, hmarker, Option.none_or, ih]

theorem entered_of_reaches (hm : m.NativesUnplaced) (hstart : start.1.line = none)
    (h : m.process.Reaches start s) : m.Entered start s.1.line s := by
  have hkeeps : ∀ t t' : Registers R × W, m.Entered start t.1.line t →
      m.process.step t = .inl t' → m.Entered start t'.1.line t' := by
    intro t t' ht hstep
    rw [line_of_step hm hstep]
    cases hmarker : m.linked.marker? t.1.address with
    | none => exact .other ht hmarker hstep
    | some n => exact .marker ht hmarker hstep
  refine h.invariant hkeeps ?_
  rw [hstart]
  exact .start

/-- A run is about to pass a marker, or is in the line of the marker in front of it. -/
def InLine (m : Machine R W) (r : Registers R) : Prop :=
  (m.linked.marker? r.address).isSome ∨ m.linked.lineBefore? r.address = r.line

/-- Only a RETURN or a NEXT takes a run out of its line without a marker. -/
theorem InLine.step (hm : m.NativesUnplaced)
    (hjumps : ∀ a t j, m.linked.code[a]? = some j → j.jump? = some t →
      (m.linked.marker? t).isSome ∨ m.linked.lineBefore? t = m.linked.lineBefore? a)
    (h : m.InLine s.1) (hstep : m.process.step s = .inl s')
    (hstrays : ¬m.linked.Strays s.1.address s'.1.address) : m.InLine s'.1 := by
  obtain ⟨i, hi, -, hleads⟩ := follows_of_step hm hstep
  have hline := line_of_step hm hstep
  have hstays (hmarker : i.marker? = none) : s'.1.line = m.linked.lineBefore? s.1.address := by
    have hnone : m.linked.marker? s.1.address = none := by
      rw [LinkedCode.marker?, hi]
      exact hmarker
    rw [InLine, hnone] at h
    rw [hline, hnone, Option.none_or]
    exact (h.resolve_left Bool.false_ne_true).symm
  rcases hleads with hnext | hjump | hback
  · right
    rw [hnext, LinkedCode.lineBefore?]
    cases hmarker : i.marker? with
    | some n =>
        rw [hline, LinkedCode.marker?, hi, Option.bind_some, hmarker, Option.some_or,
          Option.some_or]
    | none =>
        rw [hstays hmarker, LinkedCode.marker?, hi, Option.bind_some, hmarker, Option.none_or]
  · have hmarker : i.marker? = none := by
      cases i <;> first | rfl | cases hjump
    rw [InLine, hstays hmarker]
    exact hjumps _ _ i hi hjump
  · have hmarker : i.marker? = none := by
      rcases hback with rfl | ⟨var, limit, step, rfl⟩ <;> rfl
    rw [InLine, hstays hmarker, Option.isSome_iff_ne_none]
    by_contra hout
    rw [not_or, not_not] at hout
    refine hstrays ⟨?_, hout⟩
    rcases hback with rfl | ⟨var, limit, step, rfl⟩
    · exact .inl hi
    · exact .inr ⟨var, limit, step, _, hi⟩

theorem Settled.inLine (hm : m.NativesUnplaced)
    (hjumps : ∀ a t j, m.linked.code[a]? = some j → j.jump? = some t →
      (m.linked.marker? t).isSome ∨ m.linked.lineBefore? t = m.linked.lineBefore? a)
    (h : m.Settled start s) : m.InLine s.1 := by
  induction h with
  | @marker s s' _ hmarker hstep =>
      refine InLine.step hm hjumps (.inl hmarker) hstep ?_
      -- a marker is neither a RETURN nor a NEXT
      rintro ⟨hreturn | ⟨var, limit, step, body, hnext⟩, -⟩
      · rw [LinkedCode.marker?, hreturn] at hmarker
        cases hmarker
      · rw [LinkedCode.marker?, hnext] at hmarker
        cases hmarker
  | other _ hstep hstrays ih => exact ih.step hm hjumps hstep hstrays

end Machine

/-- A run of a compiled program that fails names the line whose marker it has passed last. That is the line that the failing
instruction stems from, unless a RETURN or a NEXT has gone into the middle of another line since then. -/
theorem failed_in_line [NumberSystem R] {registry : Registry} {flags : Flags} {source : String}
    {script : Script} (hcompile : compile R registry flags source = .ok script)
    (m : Machine R W) (hm : m.NativesUnplaced) :
    ∃ (p : Program R) (m' : Machine R W) (r₀ : Registers R),
      Program.read registry source = .ok p ∧ m.load script.text = .ok m' ∧
      m'.start Script.entry = .ok r₀ ∧
      ∀ w₀ r w e r' w' n, m'.process.Reaches (r₀, w₀) (r, w) →
        m'.step r w = (.ended (.failed e) r', w') →
        (p.optimize flags).lineAt? r.address = some n →
        (∀ k, m'.Entered (r₀, w₀) k (r, w) ↔ e.line = k) ∧
          (m'.Settled (r₀, w₀) (r, w) → e.line = some n) := by
  obtain ⟨p, hread, hpair, hroom, hemit⟩ := exists_of_compile hcompile
  have hsound := (Program.sound_of_read hread).optimize hpair
  obtain ⟨linked, hlink, hload⟩ := load_of_emit (W := W) hsound hroom hemit
  obtain ⟨r₀, hr₀⟩ := start_of_link_layout (m := { m with linked }) hlink
  have hpairOptimized : (p.optimize flags).LoopsPair := by
    rw [Program.optimize_eq, Program.loopsPair_prune]
    exact hpair
  have hstart : r₀.line = none := by
    rw [Machine.start] at hr₀
    split at hr₀ <;> cases hr₀
    rfl
  have hnatives : ({ m with linked } : Machine R W).NativesUnplaced := hm
  refine ⟨p, { m with linked }, r₀, hread, hload m, hr₀, ?_⟩
  intro w₀ r w e r' w' n hreach hfails hline
  have heline : e.line = r.line := by
    cases hi : linked.code[r.address]? with
    | none => simp [Machine.step, hi] at hfails
    | some i =>
        have hfollows := Machine.follows_step hnatives hi w
        rw [hfails] at hfollows
        exact hfollows
  constructor
  · intro k
    rw [heline]
    constructor
    · intro hentered
      exact hentered.line_eq hnatives hstart
    · rintro rfl
      exact Machine.entered_of_reaches hnatives hstart hreach
  · intro hsettled
    obtain ⟨hmarker, hbefore⟩ := Program.lineBefore?_of_lineAt? hpairOptimized hlink hline
    have hin := hsettled.inLine hnatives fun a t j hcode hjump =>
      hsound.coherent.jump_within hlink hcode hjump
    rw [Machine.InLine, hmarker, hbefore] at hin
    rw [heline]
    exact (hin.resolve_left Bool.false_ne_true).symm

section

variable [NumberSystem R]

theorem Builtin.unplaced_apply (b : Builtin) (draw : R) (args : List (Value R)) :
    Unplaced (b.apply draw args) := by
  have hfirst : Unplaced (first? args) := by
    unfold first?
    split
    · exact .ok _
    · exact .error rfl
  have hnumber : Unplaced (firstNumber? args) := hfirst.bind fun v => v.unplaced_number?
  cases b with
  | abs | int | sin | cos | str => exact hnumber.bind fun _ => .ok _
  | sqr =>
      refine hnumber.bind fun n => ?_
      split
      · exact .error rfl
      · exact .ok _
  | rnd => exact .ok _
  | len =>
      refine hfirst.bind fun v => ?_
      cases v with
      | number n => exact .error rfl
      | string s => exact .ok _
  | chr =>
      refine hnumber.bind fun n => ?_
      split
      · exact .ok _
      · exact .error rfl

omit [NumberSystem R] in
theorem Machine.NativesUnplaced.bind {m : Machine R W} (hm : m.NativesUnplaced) (name : String)
    {native : Native R W} (h : ∀ args w e, (native args w).1 = .error e → e.line = none) :
    (m.bind name native).NativesUnplaced := by
  intro key native' hkey
  rw [Machine.bind, Std.TreeMap.getElem?_insert] at hkey
  split at hkey
  · cases hkey
    exact h
  · exact hm key native' hkey

theorem NativeSet.line_of_builtin (console : Console W) (b : Builtin) (args : List (Value R))
    (w : W) {e : Error} (h : (builtin console b args w).1 = .error e) : e.line = none := by
  unfold builtin at h
  dsimp only at h
  split at h
  · cases h
  · rename_i e' he
    cases h
    exact b.unplaced_apply _ args _ he

theorem NativeSet.nativesUnplaced_standard (console : Console W) {m : Machine R W}
    (hm : m.NativesUnplaced) : ((standard console).bindTo m).NativesUnplaced := by
  have hwriting (text : List (Value R) → String) (args : List (Value R)) (w : W) (e : Error)
      (h : (writing console text args w).1 = .error e) : e.line = none := by
    cases h
  have hbuiltins (bs : List Builtin) (m : Machine R W) (hm : m.NativesUnplaced) :
      ((bs.map fun b => (b.name, builtin console b)).foldl
        (fun m native => m.bind native.1 native.2) m).NativesUnplaced := by
    induction bs generalizing m with
    | nil => exact hm
    | cons b bs ih =>
        exact ih _ (hm.bind _ fun args w _ => line_of_builtin console b args w)
  unfold bindTo standard
  rw [List.foldl_cons, List.foldl_cons]
  exact hbuiltins _ _ ((hm.bind _ (hwriting printed)).bind _ (hwriting fun _ => clearScreen))

end

/-- The states that a run comes to in `n` steps and in one more, with the error that it fails with then. -/
def Machine.failure? [NumberSystem R] (m : Machine R W) (n : Nat) (start : Registers R × W) :
    Option ((Registers R × W) × (Registers R × W) × Error) :=
  match m.process.after n start with
  | .inr _ => none
  | .inl s =>
      match m.process.step s with
      | .inr _ => none
      | .inl s' =>
          match m.step s'.1 s'.2 with
          | (.ended (.failed e) _, _) => some (s, s', e)
          | _ => none

theorem Machine.failure?_eq_some [NumberSystem R] {m : Machine R W} {n : Nat}
    {start s s' : Registers R × W} {e : Error} (h : m.failure? n start = some (s, s', e)) :
    m.process.Reaches start s ∧ m.process.step s = .inl s' ∧
      ∃ r w, m.step s'.1 s'.2 = (.ended (.failed e) r, w) := by
  unfold failure? at h
  split at h
  · cases h
  · rename_i hreach
    split at h
    · cases h
    · rename_i hstep
      split at h
      · rename_i r w hfails
        cases h
        exact ⟨⟨n, hreach⟩, hstep, r, w, hfails⟩
      · cases h

/-- A program on a machine without natives, at the start of its run. -/
structure BareRun where
  program : Program Float
  machine : Machine Float Unit
  start : Registers Float

def BareRun.of? (source : String) : Option BareRun := do
  let program ← (Program.read .empty source).toOption
  let script ← (compile Float .empty {} source).toOption
  let machine ← (({} : Machine Float Unit).load script.text).toOption
  let start ← (machine.start Script.entry).toOption
  some { program, machine, start }

theorem BareRun.of?_eq_some {source : String} {run : BareRun} (h : of? source = some run) :
    Program.read .empty source = .ok run.program ∧
      ∃ script, compile Float .empty {} source = .ok script ∧
        ({} : Machine Float Unit).load script.text = .ok run.machine ∧
        run.machine.start Script.entry = .ok run.start := by
  simp only [of?, Option.bind_eq_bind, Option.bind_eq_some_iff] at h
  obtain ⟨program, hprogram, script, hscript, machine, hmachine, start, hstart, h⟩ := h
  cases h
  exact ⟨eq_ok_of_toOption hprogram, script, eq_ok_of_toOption hscript,
    eq_ok_of_toOption hmachine, eq_ok_of_toOption hstart⟩

/-- The RETURN goes back into line 10, and what fails there is reported in the line of the RETURN. -/
theorem not_failed_in_line_behind_return :
    ∃ (p : Program Float) (script : Script) (m : Machine Float Unit) (r₀ r r' : Registers Float)
      (e : Error),
      Program.read .empty "10 GOSUB 100: A=1/0\n20 END\n100 RETURN" = .ok p ∧
      compile Float .empty {} "10 GOSUB 100: A=1/0\n20 END\n100 RETURN" = .ok script ∧
      ({} : Machine Float Unit).load script.text = .ok m ∧ m.start Script.entry = .ok r₀ ∧
      m.process.Reaches (r₀, ()) (r, ()) ∧ m.step r () = (.ended (.failed e) r', ()) ∧
      (p.optimize {}).lineAt? r.address = some 10 ∧ e.line = some 100 := by
  have hrun : ((BareRun.of? "10 GOSUB 100: A=1/0\n20 END\n100 RETURN").bind fun run =>
      (run.machine.failure? 5 (run.start, ())).map fun failure =>
        ((run.program.optimize {}).lineAt? failure.2.1.1.address, failure.2.2.line)) =
      some (some 10, some 100) := by
    decide +kernel
  obtain ⟨run, hof, hfailure⟩ := Option.bind_eq_some_iff.mp hrun
  obtain ⟨⟨s, s', e⟩, hfailure, hlines⟩ := Option.map_eq_some_iff.mp hfailure
  obtain ⟨hread, script, hcompile, hload, hstart⟩ := BareRun.of?_eq_some hof
  obtain ⟨hreach, hstep, r', _, hfails⟩ := Machine.failure?_eq_some hfailure
  obtain ⟨hline, heline⟩ := Prod.mk.inj hlines
  exact ⟨run.program, script, run.machine, run.start, s'.1, r', e, hread, hcompile, hload, hstart,
    hreach.trans (.of_step hstep), hfails, hline, heline⟩

theorem failed_in_line_return :
    ∃ (p : Program Float) (script : Script) (m : Machine Float Unit) (r₀ r r' : Registers Float)
      (e : Error),
      Program.read .empty "10 GOSUB 30\n20 RETURN\n30 RETURN" = .ok p ∧
      compile Float .empty {} "10 GOSUB 30\n20 RETURN\n30 RETURN" = .ok script ∧
      ({} : Machine Float Unit).NativesUnplaced ∧
      ({} : Machine Float Unit).load script.text = .ok m ∧ m.start Script.entry = .ok r₀ ∧
      m.process.Reaches (r₀, ()) (r, ()) ∧ m.Settled (r₀, ()) (r, ()) ∧
      m.step r () = (.ended (.failed e) r', ()) ∧
      (p.optimize {}).lineAt? r.address = some 20 ∧ e.line = some 20 := by
  have hrun : ((BareRun.of? "10 GOSUB 30\n20 RETURN\n30 RETURN").bind fun run =>
      (run.machine.failure? 4 (run.start, ())).map fun failure =>
        ((run.machine.linked.marker? failure.1.1.address).isSome,
          (run.program.optimize {}).lineAt? failure.2.1.1.address)) = some (true, some 20) := by
    decide +kernel
  have hnatives : ({} : Machine Float Unit).NativesUnplaced := by
    intro name native hnative
    rw [Std.TreeMap.getElem?_emptyc] at hnative
    cases hnative
  obtain ⟨run, hof, hfailure⟩ := Option.bind_eq_some_iff.mp hrun
  obtain ⟨⟨s, s', e⟩, hfailure, hlines⟩ := Option.map_eq_some_iff.mp hfailure
  obtain ⟨hread, script, hcompile, hload, hstart⟩ := BareRun.of?_eq_some hof
  obtain ⟨hreach, hstep, r', _, hfails⟩ := Machine.failure?_eq_some hfailure
  obtain ⟨hmarker, hline⟩ := Prod.mk.inj hlines
  have hsettled : run.machine.Settled (run.start, ()) s' := .marker hreach hmarker hstep
  have hreach' := hreach.trans (.of_step hstep)
  obtain ⟨p, m, r₀, hread', hload', hstart', h⟩ := failed_in_line hcompile {} hnatives
  obtain rfl : run.program = p := Except.ok.inj (hread.symm.trans hread')
  obtain rfl : run.machine = m := Except.ok.inj (hload.symm.trans hload')
  obtain rfl : run.start = r₀ := Except.ok.inj (hstart.symm.trans hstart')
  obtain ⟨-, hright⟩ := h () s'.1 () e r' _ 20 hreach' hfails hline
  exact ⟨run.program, script, run.machine, run.start, s'.1, r', e, hread, hcompile, hnatives,
    hload, hstart, hreach', hsettled, hfails, hline, hright hsettled⟩

end LineBasic
