import Mathlib.Data.List.Basic

/-!
Processes that go on from state to state until they end, and a way to show that two of them do the same: a relation
between their states that both keep, if now and then both make a step.
-/

namespace LineBasic

/-- A deterministic process: a state leads to the next one, or ends the
process. -/
structure Process (σ ε : Type) where
  step : σ → σ ⊕ ε

namespace Process

variable {σ τ υ ε κ : Type}

/-- Where a process is after at most `n` steps. -/
def after (P : Process σ ε) : Nat → σ → σ ⊕ ε
  | 0, s => .inl s
  | n + 1, s =>
      match P.step s with
      | .inl s => P.after n s
      | .inr e => .inr e

def Reaches (P : Process σ ε) (s t : σ) : Prop :=
  ∃ n, P.after n s = .inl t

/-- A process comes by a state after at least one step. -/
def Passes (P : Process σ ε) (s t : σ) : Prop :=
  ∃ n, P.after (n + 1) s = .inl t

def EndsWith (P : Process σ ε) (s : σ) (e : ε) : Prop :=
  ∃ n, P.after n s = .inr e

/-- The list is among what the process has noted at some time. -/
def Shows (P : Process σ ε) (log : σ ⊕ ε → List κ) (s : σ) (l : List κ) : Prop :=
  ∃ n, l <+: log (P.after n s)

def Grows (P : Process σ ε) (log : σ ⊕ ε → List κ) : Prop :=
  ∀ s, log (.inl s) <+: log (P.step s)

theorem after_succ (P : Process σ ε) (n : Nat) (s : σ) :
    P.after (n + 1) s =
      match P.step s with
      | .inl s => P.after n s
      | .inr e => .inr e :=
  rfl

theorem after_add {P : Process σ ε} {n : Nat} {s t : σ} (h : P.after n s = .inl t)
    (m : Nat) : P.after (n + m) s = P.after m t := by
  induction n generalizing s with
  | zero =>
      cases h
      rw [Nat.zero_add]
  | succ n ih =>
      rw [Nat.add_right_comm, after_succ]
      rw [after_succ] at h
      cases hstep : P.step s with
      | inl u =>
          rw [hstep] at h
          exact ih h
      | inr e =>
          rw [hstep] at h
          cases h

theorem after_of_ended {P : Process σ ε} {n : Nat} {s : σ} {e : ε}
    (h : P.after n s = .inr e) (m : Nat) : P.after (n + m) s = .inr e := by
  induction n generalizing s with
  | zero => cases h
  | succ n ih =>
      rw [Nat.add_right_comm, after_succ]
      rw [after_succ] at h
      cases hstep : P.step s with
      | inl u =>
          rw [hstep] at h
          exact ih h
      | inr e' =>
          rw [hstep] at h
          exact h

theorem Reaches.refl (P : Process σ ε) (s : σ) : P.Reaches s s :=
  ⟨0, rfl⟩

theorem Reaches.trans {P : Process σ ε} {s t u : σ} (h : P.Reaches s t)
    (h' : P.Reaches t u) : P.Reaches s u := by
  obtain ⟨n, hn⟩ := h
  obtain ⟨m, hm⟩ := h'
  exact ⟨n + m, (after_add hn m).trans hm⟩

theorem Passes.of_step {P : Process σ ε} {s t : σ} (h : P.step s = .inl t) :
    P.Passes s t :=
  ⟨0, by rw [after_succ, h]; rfl⟩

theorem Passes.reaches {P : Process σ ε} {s t : σ} (h : P.Passes s t) :
    P.Reaches s t := by
  obtain ⟨n, hn⟩ := h
  exact ⟨n + 1, hn⟩

theorem Reaches.of_step {P : Process σ ε} {s t : σ} (h : P.step s = .inl t) :
    P.Reaches s t :=
  (Passes.of_step h).reaches

theorem Reaches.trans_passes {P : Process σ ε} {s t u : σ} (h : P.Reaches s t)
    (h' : P.Passes t u) : P.Passes s u := by
  obtain ⟨n, hn⟩ := h
  obtain ⟨m, hm⟩ := h'
  exact ⟨n + m, by rw [Nat.add_assoc, after_add hn, hm]⟩

theorem EndsWith.of_step {P : Process σ ε} {s : σ} {e : ε} (h : P.step s = .inr e) :
    P.EndsWith s e :=
  ⟨1, by rw [after_succ, h]⟩

theorem Reaches.invariant {P : Process σ ε} {inv : σ → Prop}
    (hstep : ∀ s t, inv s → P.step s = .inl t → inv t) {s t : σ} (h : P.Reaches s t)
    (hs : inv s) : inv t := by
  obtain ⟨n, hn⟩ := h
  induction n generalizing s with
  | zero =>
      cases hn
      exact hs
  | succ n ih =>
      rw [after_succ] at hn
      cases hnext : P.step s with
      | inl u =>
          rw [hnext] at hn
          exact ih (hstep s u hs hnext) hn
      | inr e =>
          rw [hnext] at hn
          cases hn

theorem Reaches.endsWith {P : Process σ ε} {s t : σ} {e : ε} (h : P.Reaches s t)
    (h' : P.EndsWith t e) : P.EndsWith s e := by
  obtain ⟨n, hn⟩ := h
  obtain ⟨m, hm⟩ := h'
  exact ⟨n + m, (after_add hn m).trans hm⟩

theorem EndsWith.unique {P : Process σ ε} {s : σ} {e e' : ε} (h : P.EndsWith s e)
    (h' : P.EndsWith s e') : e = e' := by
  obtain ⟨n, hn⟩ := h
  obtain ⟨m, hm⟩ := h'
  have hnm := after_of_ended hn m
  rw [Nat.add_comm, after_of_ended hm] at hnm
  exact (Sum.inr.inj hnm).symm

theorem log_after_add {P : Process σ ε} {log : σ ⊕ ε → List κ} (hgrow : P.Grows log)
    (s : σ) (n m : Nat) : log (P.after n s) <+: log (P.after (n + m) s) := by
  induction n generalizing s with
  | zero =>
      rw [Nat.zero_add]
      induction m generalizing s with
      | zero => exact List.prefix_rfl
      | succ m ih =>
          have hs := hgrow s
          rw [after_succ]
          cases hstep : P.step s with
          | inl t =>
              rw [hstep] at hs
              exact hs.trans (ih t)
          | inr e =>
              rw [hstep] at hs
              exact hs
  | succ n ih =>
      rw [Nat.add_right_comm, after_succ, after_succ]
      cases P.step s with
      | inl t => exact ih t
      | inr e => exact List.prefix_rfl

theorem log_after_le {P : Process σ ε} {log : σ ⊕ ε → List κ} (hgrow : P.Grows log)
    (s : σ) {n m : Nat} (h : n ≤ m) : log (P.after n s) <+: log (P.after m s) := by
  obtain ⟨k, rfl⟩ := Nat.exists_eq_add_of_le h
  exact log_after_add hgrow s n k

/-- What a related pair of states leads to: both processes come to related
states again, or both end in the same way. They both make a step on the
way, unless the measure of the pair gets less. -/
inductive Round (P : Process σ ε) (Q : Process τ ε) (rel : σ → τ → Prop)
    (measure : σ → τ → Nat) (s : σ) (t : τ) : Prop where
  | pass {s' : σ} {t' : τ} : P.Passes s s' → Q.Passes t t' → rel s' t' →
      Round P Q rel measure s t
  | stay {s' : σ} {t' : τ} : P.Reaches s s' → Q.Reaches t t' → rel s' t' →
      measure s' t' < measure s t → Round P Q rel measure s t
  | close {e : ε} : P.EndsWith s e → Q.EndsWith t e → Round P Q rel measure s t

variable {P : Process σ ε} {Q : Process τ ε} {rel : σ → τ → Prop}
  {measure : σ → τ → Nat}

theorem Round.symm {s : σ} {t : τ} (h : Round P Q rel measure s t) :
    Round Q P (fun t s => rel s t) (fun t s => measure s t) t s := by
  cases h with
  | pass hP hQ hrel => exact .pass hQ hP hrel
  | stay hP hQ hrel hlt => exact .stay hQ hP hrel hlt
  | close hP hQ => exact .close hQ hP

/-- A round stays among the states that the second process comes by. -/
theorem Round.of_reaches {s : σ} {t t₀ : τ} (h : Round P Q rel measure s t)
    (hreach : Q.Reaches t₀ t) :
    Round P Q (fun s t => rel s t ∧ Q.Reaches t₀ t) measure s t := by
  cases h with
  | pass hP hQ hrel => exact .pass hP hQ ⟨hrel, hreach.trans hQ.reaches⟩
  | stay hP hQ hrel hlt => exact .stay hP hQ ⟨hrel, hreach.trans hQ⟩ hlt
  | close hP hQ => exact .close hP hQ

private theorem endsWith_of_rounds
    (hround : ∀ s t, rel s t → Round P Q rel measure s t) {e : ε} (n : Nat) :
    ∀ s t, rel s t → P.after n s = .inr e → Q.EndsWith t e := by
  induction n using Nat.strongRecOn with
  | ind n ihn =>
      intro s t
      -- rounds without a step of the first process run out with the measure
      induction hm : measure s t using Nat.strongRecOn generalizing s t with
      | ind m ihm =>
          intro hrel hend
          cases hround s t hrel with
          | pass hP hQ hrel' =>
              obtain ⟨k, hk⟩ := hP
              rcases Nat.lt_or_ge n (k + 1) with hlt | hge
              · have hlate := after_of_ended hend (k + 1 - n)
                rw [Nat.add_sub_cancel' (by omega), hk] at hlate
                cases hlate
              · obtain ⟨l, rfl⟩ := Nat.exists_eq_add_of_le hge
                rw [after_add hk] at hend
                exact hQ.reaches.endsWith (ihn l (by omega) _ _ hrel' hend)
          | stay hP hQ hrel' hlt =>
              obtain ⟨k, hk⟩ := hP
              rcases Nat.lt_or_ge n k with hlt' | hge
              · have hlate := after_of_ended hend (k - n)
                rw [Nat.add_sub_cancel' (by omega), hk] at hlate
                cases hlate
              · obtain ⟨l, rfl⟩ := Nat.exists_eq_add_of_le hge
                rw [after_add hk] at hend
                refine hQ.endsWith ?_
                rcases Nat.eq_zero_or_pos k with rfl | hpos
                · rw [Nat.zero_add] at ihm
                  exact ihm _ (hm ▸ hlt) _ _ rfl hrel' hend
                · exact ihn l (by omega) _ _ hrel' hend
          | close hP hQ =>
              rw [hP.unique ⟨n, hend⟩] at hQ
              exact hQ

private theorem shows_of_rounds {logP : σ ⊕ ε → List κ} {logQ : τ ⊕ ε → List κ}
    (hgrowP : P.Grows logP)
    (hlog : ∀ s t, rel s t → logP (.inl s) = logQ (.inl t))
    (hlogEnd : ∀ e, logP (.inr e) = logQ (.inr e))
    (hround : ∀ s t, rel s t → Round P Q rel measure s t) {l : List κ} (n : Nat) :
    ∀ s t, rel s t → l <+: logP (P.after n s) → Q.Shows logQ t l := by
  induction n using Nat.strongRecOn with
  | ind n ihn =>
      intro s t
      induction hm : measure s t using Nat.strongRecOn generalizing s t with
      | ind m ihm =>
          intro hrel hl
          have hreach : ∀ {s' t' k}, P.after k s = .inl s' → n ≤ k → rel s' t' →
              Q.Reaches t t' → Q.Shows logQ t l := by
            intro s' t' k hk hle hrel' hQ
            obtain ⟨j, hj⟩ := hQ
            refine ⟨j, ?_⟩
            rw [hj, ← hlog s' t' hrel', ← hk]
            exact hl.trans (log_after_le hgrowP s hle)
          have hlater : ∀ {t'}, Q.Reaches t t' → Q.Shows logQ t' l → Q.Shows logQ t l := by
            rintro t' ⟨j, hj⟩ ⟨i, hi⟩
            exact ⟨j + i, by rwa [after_add hj]⟩
          cases hround s t hrel with
          | pass hP hQ hrel' =>
              obtain ⟨k, hk⟩ := hP
              rcases Nat.le_total n (k + 1) with hle | hge
              · exact hreach hk hle hrel' hQ.reaches
              · obtain ⟨i, rfl⟩ := Nat.exists_eq_add_of_le hge
                rw [after_add hk] at hl
                exact hlater hQ.reaches (ihn i (by omega) _ _ hrel' hl)
          | stay hP hQ hrel' hlt =>
              obtain ⟨k, hk⟩ := hP
              rcases Nat.le_total n k with hle | hge
              · exact hreach hk hle hrel' hQ
              · obtain ⟨i, rfl⟩ := Nat.exists_eq_add_of_le hge
                rw [after_add hk] at hl
                refine hlater hQ ?_
                rcases Nat.eq_zero_or_pos k with rfl | hpos
                · rw [Nat.zero_add] at ihm
                  exact ihm _ (hm ▸ hlt) _ _ rfl hrel' hl
                · exact ihn i (by omega) _ _ hrel' hl
          | close hP hQ =>
              obtain ⟨k, hk⟩ := hP
              obtain ⟨j, hj⟩ := hQ
              refine ⟨j, ?_⟩
              rw [hj, ← hlogEnd, ← after_of_ended hk n, Nat.add_comm]
              exact hl.trans (log_after_add hgrowP s n k)

/-- Two processes that end in the same way, if at all, and show the same. -/
structure Same (P : Process σ ε) (logP : σ ⊕ ε → List κ) (s : σ) (Q : Process τ ε)
    (logQ : τ ⊕ ε → List κ) (t : τ) : Prop where
  endsWith_iff : ∀ e, P.EndsWith s e ↔ Q.EndsWith t e
  shows_iff : ∀ l, P.Shows logP s l ↔ Q.Shows logQ t l

variable {logP : σ ⊕ ε → List κ} {logQ : τ ⊕ ε → List κ}

theorem Same.symm {s : σ} {t : τ} (h : Same P logP s Q logQ t) : Same Q logQ t P logP s :=
  ⟨fun e => (h.endsWith_iff e).symm, fun l => (h.shows_iff l).symm⟩

theorem Same.trans {Z : Process υ ε} {logZ : υ ⊕ ε → List κ} {s : σ} {t : τ} {u : υ}
    (h : Same P logP s Q logQ t) (h' : Same Q logQ t Z logZ u) :
    Same P logP s Z logZ u :=
  ⟨fun e => (h.endsWith_iff e).trans (h'.endsWith_iff e),
    fun l => (h.shows_iff l).trans (h'.shows_iff l)⟩

/-- Processes do the same from related states on, if related states always
lead to related states. -/
theorem Same.of_rounds (rel : σ → τ → Prop) (measure : σ → τ → Nat) (hgrowP : P.Grows logP) (hgrowQ : Q.Grows logQ)
    (hlog : ∀ s t, rel s t → logP (.inl s) = logQ (.inl t))
    (hlogEnd : ∀ e, logP (.inr e) = logQ (.inr e))
    (hround : ∀ s t, rel s t → Round P Q rel measure s t) {s : σ} {t : τ}
    (hrel : rel s t) : Same P logP s Q logQ t where
  endsWith_iff _ :=
    ⟨fun ⟨n, hn⟩ => endsWith_of_rounds hround n s t hrel hn,
      fun ⟨n, hn⟩ =>
        endsWith_of_rounds (fun t s h => (hround s t h).symm) n t s hrel hn⟩
  shows_iff _ :=
    ⟨fun ⟨n, hn⟩ => shows_of_rounds hgrowP hlog hlogEnd hround n s t hrel hn,
      fun ⟨n, hn⟩ =>
        shows_of_rounds hgrowQ (fun t s h => (hlog s t h).symm)
          (fun e => (hlogEnd e).symm) (fun t s h => (hround s t h).symm) n t s hrel hn⟩

end Process

end LineBasic
