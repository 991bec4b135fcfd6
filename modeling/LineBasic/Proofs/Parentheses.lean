import LineBasic.Proofs.Columns
import LineBasic.Proofs.Reparsing

namespace LineBasic

variable {R : Type}

/-- How tightly a sign between two operands holds them together. -/
def BinaryOp.tightness : BinaryOp → Nat
  | or => 0
  | and => 1
  | equal | notEqual | less | lessEqual | greater | greaterEqual => 3
  | add | subtract => 4
  | multiply | divide | modulus => 5
  | power => 7

/-- How tightly a sign in front of an operand holds it. -/
def UnaryOp.tightness : UnaryOp → Nat
  | not => 2
  | negate => 6

namespace BinaryOp

/-- How tightly the left operand has to hold together. Only powers do not group to the left. -/
def leftTightness (op : BinaryOp) : Nat :=
  if op = power then op.tightness + 1 else op.tightness

/-- How tightly the right operand has to hold together. Only powers group to the right. -/
def rightTightness (op : BinaryOp) : Nat :=
  if op = power then op.tightness else op.tightness + 1

def sign : BinaryOp → Operator
  | power => .caret
  | multiply => .times
  | divide => .slash
  | modulus => .mod
  | add => .plus
  | subtract => .minus
  | equal => .equal
  | notEqual => .notEqual
  | less => .less
  | lessEqual => .lessEqual
  | greater => .greater
  | greaterEqual => .greaterEqual
  | and => .and
  | or => .or

@[simp] theorem precedence?_sign (op : BinaryOp) : op.sign.precedence? = some (op.tightness + 1) := by
  cases op <;> rfl

@[simp] theorem binary_sign (op : BinaryOp) (h : op.sign.precedence?.isSome) : op.sign.binary h = op := by
  cases op <;> rfl

theorem rightPrecedence_sign (op : BinaryOp) :
    op.sign.rightPrecedence (op.tightness + 1) = op.rightTightness + 1 := by
  cases op <;> rfl

theorem tightness_le_left (op : BinaryOp) : op.tightness ≤ op.leftTightness := by
  unfold leftTightness
  split <;> omega

theorem tightness_le_right (op : BinaryOp) : op.tightness ≤ op.rightTightness := by
  unfold rightTightness
  split <;> omega

theorem tightness_lt_right {op left : BinaryOp} (h : op.leftTightness ≤ left.tightness) :
    op.tightness < left.rightTightness := by
  by_cases hleft : left = power
  · have hop : op ≠ power := by
      rintro rfl
      rw [hleft] at h
      exact absurd h (by decide)
    rw [leftTightness, if_neg hop] at h
    rw [rightTightness, if_pos hleft]
    refine Nat.lt_of_le_of_ne h fun heq => hop ?_
    rw [hleft] at heq
    cases op <;> first | rfl | cases heq
  · rw [rightTightness, if_neg hleft]
    exact Nat.lt_succ_of_le (Nat.le_trans (tightness_le_left op) h)

theorem tightness_lt (op : BinaryOp) : op.tightness < 8 := by
  cases op <;> decide

theorem tightness_ne_unary (op : BinaryOp) (op' : UnaryOp) : op.tightness ≠ op'.tightness := by
  cases op <;> cases op' <;> decide

end BinaryOp

theorem Operator.precedence?_binary {sign : Operator} (h : sign.precedence?.isSome) :
    sign.precedence? = some ((sign.binary h).tightness + 1) := by
  cases sign <;> first | rfl | cases h

namespace UnaryOp

def sign : UnaryOp → Operator
  | negate => .minus
  | not => .not

theorem precedence_eq (op : UnaryOp) : op.precedence = op.tightness + 1 := by
  cases op <;> rfl

end UnaryOp

def Token.enclosed (tokens : List Token) (need : Prop) [Decidable need] : List Token :=
  if need then .leftParen :: (tokens ++ [.rightParen]) else tokens

namespace Expr

/-- How tightly an expression holds together. Nothing takes part of what has no operator outside of parentheses. -/
def tightness : Expr R → Nat
  | unary op _ _ => op.tightness
  | binary op _ _ _ => op.tightness
  | _ => 8

variable (numeral : R → String)

mutual

/-- The tokens of an expression, its numbers written as the given numerals. -/
def tokens : Expr R → List Token
  | number _ n => [.number (numeral n)]
  | string _ s => [.string s]
  -- no token stands for what PRINT adds by itself
  | char _ _ => []
  | var _ name => [.name name]
  | call _ name args => .name name :: .leftParen :: (tokensAll args ++ [.rightParen])
  | unary op _ e =>
      .operator op.sign :: Token.enclosed e.tokens (e.tightness < op.tightness)
  | binary op _ l r =>
      Token.enclosed l.tokens (l.tightness < op.leftTightness) ++
        .operator op.sign :: Token.enclosed r.tokens (r.tightness < op.rightTightness)

def tokensAll : List (Expr R) → List Token
  | [] => []
  | [e] => e.tokens
  | e :: e' :: es => e.tokens ++ .comma :: tokensAll (e' :: es)

end

/-- The tokens of an operand whose place asks for the given tightness. -/
def operand (need : Nat) (e : Expr R) : List Token :=
  Token.enclosed (e.tokens numeral) (e.tightness < need)

/-- How tightly an operator behind an expression has to hold to be taken for a part of its last operand. -/
def reach : Expr R → Nat
  | unary op _ _ => op.tightness
  | binary op _ _ _ => op.rightTightness
  | _ => 8

theorem tightness_le_reach (e : Expr R) : e.tightness ≤ e.reach := by
  cases e with
  | binary op _ _ _ => exact op.tightness_le_right
  | _ => exact Nat.le_refl _

theorem tightness_lt_reach {op : BinaryOp} {e : Expr R} (h : op.leftTightness ≤ e.tightness) :
    op.tightness < e.reach := by
  cases e with
  | unary op' _ _ =>
      exact Nat.lt_of_le_of_ne (Nat.le_trans op.tightness_le_left h) (op.tightness_ne_unary op')
  | binary op' _ _ _ => exact BinaryOp.tightness_lt_right h
  | _ => exact op.tightness_lt

end Expr

variable [NumberSystem R]

/-- An expression that a text can have: each number is what its numeral says. -/
inductive Expr.IsWritable (numeral : R → String) : Expr R → Prop where
  | number {column : Column} {n : R} : NumberSystem.read? (numeral n) = some n →
      IsWritable numeral (number column n)
  | string {column : Column} {s : String} : IsWritable numeral (string column s)
  | var {column : Column} {name : String} : IsWritable numeral (var column name)
  | call {column : Column} {name : String} {args : List (Expr R)} :
      (∀ e ∈ args, IsWritable numeral e) → IsWritable numeral (call column name args)
  | unary {op : UnaryOp} {column : Column} {e : Expr R} :
      IsWritable numeral e → IsWritable numeral (unary op column e)
  | binary {op : BinaryOp} {column : Column} {l r : Expr R} :
      IsWritable numeral l → IsWritable numeral r → IsWritable numeral (binary op column l r)

/-- A token that an expression may start with. -/
def Token.Opens : Token → Prop
  | number _ | string _ | name _ | leftParen | operator .minus | operator .not => True
  | _ => False

namespace Token

def next? (place : List (Column × Token)) : Option Token :=
  place.head?.map Prod.snd

/-- The given tokens stand between two places of a line. -/
def Spans (tokens : List Token) (place behind : List (Column × Token)) : Prop :=
  ∃ taken, place = taken ++ behind ∧ taken.map Prod.snd = tokens

variable {token : Token} {ts us : List Token} {place behind : List (Column × Token)}

theorem next?_of_spans (h : Spans (token :: ts) place behind) : next? place = some token := by
  obtain ⟨taken, rfl, htokens⟩ := h
  obtain ⟨t, taken, rfl, rfl, rfl⟩ := List.map_eq_cons_iff.mp htokens
  rfl

theorem exists_of_spans_append (h : Spans (ts ++ us) place behind) :
    ∃ middle, Spans ts place middle ∧ Spans us middle behind := by
  obtain ⟨taken, rfl, htokens⟩ := h
  obtain ⟨front, back, rfl, rfl, rfl⟩ := List.map_eq_append_iff.mp htokens
  exact ⟨back ++ behind, ⟨front, List.append_assoc _ _ _, rfl⟩, ⟨back, rfl, rfl⟩⟩

/-- What stands at a place does not go on with an expression in front of it: no operator holds as tightly as `bound`, and
no parenthesis stands behind a name. -/
structure EndsAt (bound : Nat) (tokens : List Token) (place : List (Column × Token)) : Prop where
  operator : ∀ sign, next? place = some (.operator sign) →
    ∀ h : sign.precedence?.isSome, (sign.binary h).tightness < bound
  parenthesis : ∀ name, tokens.getLast? = some (.name name) → next? place ≠ some .leftParen

theorem endsAt_of_ne {bound : Nat} (h : next? place = some token)
    (hoperator : ∀ sign, token ≠ .operator sign) (hparen : token ≠ .leftParen) : EndsAt bound ts place where
  operator sign hsign := by
    rw [h, Option.some.injEq] at hsign
    exact absurd hsign (hoperator sign)
  parenthesis name _ := by
    rw [h, ne_eq, Option.some.injEq]
    exact hparen

theorem EndsAt.mono {bound bound' : Nat} (h : EndsAt bound ts place) (hle : bound ≤ bound') :
    EndsAt bound' ts place where
  operator sign hsign hbinary := Nat.lt_of_lt_of_le (h.operator sign hsign hbinary) hle
  parenthesis := h.parenthesis

theorem EndsAt.of_append {bound : Nat} {u : List Token} (h : EndsAt bound (u ++ ts) place) :
    EndsAt bound ts place where
  operator := h.operator
  parenthesis name hname := h.parenthesis name (by rw [List.getLast?_append, hname, Option.some_or])

end Token

namespace Cursor

open Token

variable {token : Token} {ts : List Token} {c : Cursor} {behind : List (Column × Token)}

theorem of_spans_nil (h : Spans [] c.rest behind) : c.rest = behind := by
  obtain ⟨taken, hrest, htokens⟩ := h
  rw [List.map_eq_nil_iff.mp htokens] at hrest
  exact hrest

theorem of_spans_cons (h : Spans (token :: ts) c.rest behind) :
    c.peek? = some token ∧ Spans ts c.skip.rest behind := by
  refine ⟨next?_of_spans h, ?_⟩
  obtain ⟨taken, hrest, htokens⟩ := h
  obtain ⟨t, taken, rfl, rfl, rfl⟩ := List.map_eq_cons_iff.mp htokens
  rw [skip, hrest]
  exact ⟨taken, rfl, rfl⟩

/-- A reader gets a result that is right, and is at a place then. -/
abbrev Gets {α : Type} (right : α → Prop) (behind : List (Column × Token)) :
    Except Error (α × Cursor) → Prop :=
  Ends (fun _ => False) fun r => right r.1 ∧ r.2.rest = behind

theorem Gets.exists_ok {α : Type} {right : α → Prop} {x : Except Error (α × Cursor)}
    (h : Gets right behind x) : ∃ a c', x = .ok (a, c') ∧ right a ∧ c'.rest = behind := by
  cases x with
  | error e => exact h.elim
  | ok r => exact ⟨r.1, r.2, rfl, h⟩

theorem expect_eq_ok (h : c.peek? = some token) : c.expect token = .ok c.skip :=
  if_pos h

variable {numeral : R → String} {e : Expr R} {fuel least count : Nat}

/-- The reader of expressions takes an expression up to a place, and goes on with the operators behind it. At most `count` of
its fuel is used then. -/
def Takes (fuel least : Nat) (c : Cursor) (e : Expr R) (behind : List (Column × Token)) (count : Nat) :
    Prop :=
  ∃ fuel' e' c', takeExpression fuel least c = takeOperators fuel' least e' c' ∧
    SameExpr e e' ∧ c'.rest = behind ∧ fuel ≤ fuel' + count

theorem takes_of_takeOperand (h : Gets (SameExpr e) behind (takeOperand fuel c)) (hcount : 0 < count) :
    Takes (fuel + 1) least c e behind count := by
  obtain ⟨e', c', hoperand, he, hrest⟩ := h.exists_ok
  refine ⟨fuel, e', c', ?_, he, hrest, by omega⟩
  rw [takeExpression, hoperand]
  rfl

/-- An expression is taken whole if no operator behind it is taken for its own. -/
theorem Takes.gets (h : Takes fuel least c e behind count) (hcount : count < fuel)
    (hend : EndsAt (least - 1) ts behind) : Gets (SameExpr e) behind (takeExpression fuel least c) := by
  obtain ⟨fuel', e', c', heq, he, rfl, hfuel⟩ := h
  obtain ⟨fuel', rfl⟩ := Nat.exists_eq_add_of_le' (show 1 ≤ fuel' by omega)
  have htaken : takeOperators (fuel' + 1) least e' c' = .ok (e', c') := by
    refine takeOperators_of_end fuel' e' fun sign precedence hpeek hprecedence => ?_
    have hbinary := Operator.isSome_precedence? hprecedence
    have hlt := hend.operator sign hpeek hbinary
    rw [Operator.precedence?_binary hbinary, Option.some.injEq] at hprecedence
    omega
  rw [heq, htaken]
  exact ⟨he, rfl⟩

/-- Where its tokens stand an expression is taken, if what stands behind them does not go on with it. -/
structure ReadsBack (numeral : R → String) (e : Expr R) : Prop where
  opens : ∃ token rest, e.tokens numeral = token :: rest ∧ token.Opens
  takes : ∀ {fuel least : Nat} {c : Cursor} {behind : List (Column × Token)},
    Spans (e.tokens numeral) c.rest behind → EndsAt e.reach (e.tokens numeral) behind →
    least ≤ e.tightness + 1 → 2 * (e.tokens numeral).length ≤ fuel →
    Takes fuel least c e behind (e.tokens numeral).length

theorem ReadsBack.length_pos (h : ReadsBack numeral e) : 0 < (e.tokens numeral).length := by
  obtain ⟨token, rest, htokens, -⟩ := h.opens
  rw [htokens]
  exact Nat.succ_pos _

/-- In front of what is no operator an expression is taken whole. -/
theorem ReadsBack.gets (h : ReadsBack numeral e) (hspans : Spans (e.tokens numeral) c.rest behind)
    (hend : EndsAt 0 (e.tokens numeral) behind) (hfuel : 2 * (e.tokens numeral).length ≤ fuel) :
    Gets (SameExpr e) behind (takeExpression fuel 0 c) := by
  have hpos := h.length_pos
  exact (h.takes hspans (hend.mono (Nat.zero_le _)) (Nat.zero_le _) hfuel).gets (by omega) hend

/-- In front of a token that does not go on with it an expression is taken whole. -/
theorem ReadsBack.gets_before (h : ReadsBack numeral e)
    (hspans : Spans (e.tokens numeral ++ token :: ts) c.rest behind) (hoperator : ∀ sign, token ≠ .operator sign)
    (hparen : token ≠ .leftParen) (hfuel : 2 * (e.tokens numeral).length ≤ fuel) :
    Ends (fun _ => False) (fun r => SameExpr e r.1 ∧ r.2.peek? = some token ∧ Spans ts r.2.skip.rest behind)
      (takeExpression fuel 0 c) := by
  obtain ⟨middle, hspans, hmore⟩ := exists_of_spans_append hspans
  obtain ⟨e', c', htaken, he, rfl⟩ :=
    (h.gets hspans (endsAt_of_ne (next?_of_spans hmore) hoperator hparen) hfuel).exists_ok
  rw [htaken]
  exact ⟨he, of_spans_cons hmore⟩

theorem ReadsBack.operand_opens (h : ReadsBack numeral e) (need : Nat) :
    ∃ token rest, e.operand numeral need = token :: rest ∧ token.Opens := by
  unfold Expr.operand enclosed
  split
  · exact ⟨_, _, rfl, trivial⟩
  · exact h.opens

theorem ReadsBack.operand_length_pos (h : ReadsBack numeral e) (need : Nat) :
    0 < (e.operand numeral need).length := by
  obtain ⟨token, rest, htokens, -⟩ := h.operand_opens need
  rw [htokens]
  exact Nat.succ_pos _

/-- An operand is taken, in parentheses where it needs them. -/
theorem ReadsBack.takes_operand (h : ReadsBack numeral e) {need : Nat}
    (hspans : Spans (e.operand numeral need) c.rest behind) (hleast : least ≤ need + 1)
    (hend : need ≤ e.tightness → EndsAt e.reach (e.tokens numeral) behind)
    (hfuel : 2 * (e.operand numeral need).length ≤ fuel) :
    Takes fuel least c e behind (e.operand numeral need).length := by
  unfold Expr.operand enclosed at hspans hfuel ⊢
  split
  · rename_i hneed
    rw [if_pos hneed] at hspans hfuel
    simp only [List.length_cons, List.length_append, List.length_nil] at hfuel
    obtain ⟨fuel, rfl⟩ := Nat.exists_eq_add_of_le' (show 2 ≤ fuel by omega)
    obtain ⟨hpeek, hspans⟩ := of_spans_cons hspans
    refine takes_of_takeOperand ?_ (Nat.succ_pos _)
    rw [takeOperand]
    simp only [hpeek]
    refine (h.gets_before hspans (by simp) (by simp) (by omega)).bind ?_
    rintro ⟨e', c'⟩ ⟨he, hclose, hrest⟩
    rw [expect_eq_ok hclose]
    exact ⟨he, of_spans_nil hrest⟩
  · rename_i hneed
    rw [if_neg hneed] at hspans hfuel
    exact h.takes hspans (hend (Nat.not_lt.mp hneed)) (by omega) hfuel

theorem ReadsBack.gets_operand (h : ReadsBack numeral e) {need : Nat}
    (hspans : Spans (e.operand numeral need) c.rest behind)
    (hend : EndsAt need (e.operand numeral need) behind)
    (hfuel : 2 * (e.operand numeral need).length ≤ fuel) :
    Gets (SameExpr e) behind (takeExpression fuel (need + 1) c) := by
  have hpos := h.operand_length_pos need
  refine (h.takes_operand hspans (Nat.le_refl _) (fun hneed => ?_) hfuel).gets (by omega) hend
  rw [Expr.operand, enclosed, if_neg (Nat.not_lt.mpr hneed)] at hend
  exact hend.mono (Nat.le_trans hneed e.tightness_le_reach)

theorem readsBack_number (column : Column) {n : R} (h : NumberSystem.read? (numeral n) = some n) :
    ReadsBack numeral (.number column n) where
  opens := ⟨_, _, rfl, trivial⟩
  takes {fuel least c behind} hspans _ _ hfuel := by
    obtain ⟨fuel, rfl⟩ := Nat.exists_eq_add_of_le' (show 2 ≤ fuel from hfuel)
    obtain ⟨hpeek, hspans⟩ := of_spans_cons hspans
    refine takes_of_takeOperand ?_ Nat.one_pos
    rw [takeOperand]
    simp only [hpeek, h]
    exact ⟨rfl, of_spans_nil hspans⟩

theorem readsBack_string (column : Column) (s : String) :
    ReadsBack numeral (.string column s : Expr R) where
  opens := ⟨_, _, rfl, trivial⟩
  takes {fuel least c behind} hspans _ _ hfuel := by
    obtain ⟨fuel, rfl⟩ := Nat.exists_eq_add_of_le' (show 2 ≤ fuel from hfuel)
    obtain ⟨hpeek, hspans⟩ := of_spans_cons hspans
    refine takes_of_takeOperand ?_ Nat.one_pos
    rw [takeOperand]
    simp only [hpeek]
    exact ⟨rfl, of_spans_nil hspans⟩

theorem readsBack_var (column : Column) (name : String) :
    ReadsBack numeral (.var column name : Expr R) where
  opens := ⟨_, _, rfl, trivial⟩
  takes {fuel least c behind} hspans hend _ hfuel := by
    obtain ⟨fuel, rfl⟩ := Nat.exists_eq_add_of_le' (show 2 ≤ fuel from hfuel)
    obtain ⟨hpeek, hspans⟩ := of_spans_cons hspans
    have hrest := of_spans_nil hspans
    have hparen : c.skip.peek? ≠ some .leftParen := by
      have hparen := hend.parenthesis name rfl
      rwa [← hrest] at hparen
    refine takes_of_takeOperand ?_ Nat.one_pos
    rw [takeOperand]
    simp only [hpeek, if_neg hparen]
    exact ⟨rfl, hrest⟩

theorem takeOperand_of_sign {op : UnaryOp} (hpeek : c.peek? = some (.operator op.sign)) :
    takeOperand (R := R) (fuel + 1) c = (do
      let (e, c') ← takeExpression fuel op.precedence c.skip
      return (.unary op c.skip.column e, c')) := by
  rw [takeOperand]
  cases op <;> simp only [hpeek, UnaryOp.sign]

theorem ReadsBack.unary (op : UnaryOp) (column : Column) (h : ReadsBack numeral e) :
    ReadsBack numeral (.unary op column e) where
  opens := by cases op <;> exact ⟨_, _, rfl, trivial⟩
  takes {fuel least c behind} hspans hend _ hfuel := by
    rw [Expr.tokens, ← Expr.operand] at hspans hend hfuel ⊢
    rw [List.length_cons] at hfuel
    obtain ⟨fuel, rfl⟩ := Nat.exists_eq_add_of_le' (show 2 ≤ fuel by omega)
    obtain ⟨hpeek, hspans⟩ := of_spans_cons hspans
    have hoperand : Gets (SameExpr e) behind (takeExpression fuel (op.tightness + 1) c.skip) :=
      h.gets_operand hspans (EndsAt.of_append (u := [_]) hend) (by omega)
    refine takes_of_takeOperand ?_ (Nat.succ_pos _)
    rw [takeOperand_of_sign hpeek, op.precedence_eq]
    exact hoperand.bind fun r hr => ⟨congrArg (Expr.unary op {}) hr.1, hr.2⟩

theorem ReadsBack.binary (op : BinaryOp) (column : Column) {l r : Expr R} (hl : ReadsBack numeral l)
    (hr : ReadsBack numeral r) : ReadsBack numeral (.binary op column l r) where
  opens := by
    obtain ⟨token, rest, htokens, hopens⟩ := hl.operand_opens op.leftTightness
    rw [Expr.tokens, ← Expr.operand, htokens]
    exact ⟨_, _, rfl, hopens⟩
  takes {fuel least c behind} hspans hend hleast hfuel := by
    rw [Expr.tokens, ← Expr.operand, ← Expr.operand] at hspans hend hfuel ⊢
    rw [List.length_append, List.length_cons] at hfuel ⊢
    obtain ⟨middle, hspans, hmore⟩ := exists_of_spans_append hspans
    have hsign : next? middle = some (.operator op.sign) := next?_of_spans hmore
    -- the reader does not stop behind the left operand: it goes on with this sign in the same call
    have hleft : Takes fuel least c l middle (l.operand numeral op.leftTightness).length := by
      refine hl.takes_operand hspans (Nat.le_trans hleast ?_) (fun hneed => ?_) (by omega)
      · exact Nat.succ_le_succ op.tightness_le_left
      · refine ⟨fun sign hsign' hbinary => ?_, fun name _ => by simp [hsign]⟩
        obtain rfl : op.sign = sign := by simpa [hsign] using hsign'
        rw [op.binary_sign]
        exact Expr.tightness_lt_reach hneed
    obtain ⟨fuel', l', c', htaken, hl', rfl, hfuel'⟩ := hleft
    obtain ⟨fuel', rfl⟩ := Nat.exists_eq_add_of_le' (show 1 ≤ fuel' by omega)
    obtain ⟨hpeek, hspans⟩ := of_spans_cons hmore
    have hright : Gets (SameExpr r) behind (takeExpression fuel' (op.rightTightness + 1) c'.skip) := by
      rw [List.append_cons] at hend
      exact hr.gets_operand hspans hend.of_append (by omega)
    obtain ⟨r', c'', hright, hr', hrest⟩ := hright.exists_ok
    refine ⟨fuel', .binary op c'.skip.column l' r', c'', ?_, ?_, hrest, by omega⟩
    · rw [htaken, takeOperators_of_sign l' hpeek op.precedence?_sign hleast, op.rightPrecedence_sign,
        hright, op.binary_sign]
      rfl
    · show Expr.binary op {} l'.bare r'.bare = Expr.binary op {} l.bare r.bare
      rw [hl', hr']

theorem gets_takeMoreArguments {args : List (Expr R)} (hne : args ≠ [])
    (h : ∀ e ∈ args, ReadsBack numeral e)
    (hspans : Spans (Expr.tokensAll numeral args ++ [.rightParen]) c.rest behind)
    (hfuel : 2 * (Expr.tokensAll numeral args).length < fuel) :
    Gets (SameExprs args) behind (takeMoreArguments fuel c) := by
  induction args generalizing c fuel with
  | nil => exact absurd rfl hne
  | cons e es ih =>
      obtain ⟨he, hes⟩ := List.forall_mem_cons.mp h
      obtain ⟨fuel, rfl⟩ := Nat.exists_eq_add_of_le' (show 1 ≤ fuel by omega)
      rw [takeMoreArguments]
      cases es with
      | nil =>
          rw [Expr.tokensAll] at hspans hfuel
          refine (he.gets_before hspans (by simp) (by simp) (by omega)).bind ?_
          rintro ⟨e', c'⟩ ⟨he', hclose, hrest⟩
          simp only [hclose]
          exact ⟨.cons he' rfl, of_spans_nil hrest⟩
      | cons e₂ es =>
          rw [Expr.tokensAll, List.append_assoc] at hspans
          rw [Expr.tokensAll, List.length_append, List.length_cons] at hfuel
          refine (he.gets_before hspans (by simp) (by simp) (by omega)).bind ?_
          rintro ⟨e', c'⟩ ⟨he', hcomma, hspans⟩
          simp only [hcomma]
          refine (ih (List.cons_ne_nil _ _) hes hspans (by omega)).bind fun r hr => ?_
          exact ⟨.cons he' hr.1, hr.2⟩

theorem tokensAll_opens {args : List (Expr R)} (hne : args ≠ []) (h : ∀ e ∈ args, ReadsBack numeral e) :
    ∃ token rest, Expr.tokensAll numeral args = token :: rest ∧ token.Opens := by
  cases args with
  | nil => exact absurd rfl hne
  | cons e es =>
      obtain ⟨token, rest, htokens, hopens⟩ := (h e List.mem_cons_self).opens
      cases es with
      | nil => exact ⟨token, rest, htokens, hopens⟩
      | cons e₂ es =>
          rw [Expr.tokensAll, htokens]
          exact ⟨token, _, rfl, hopens⟩

/-- The arguments of a call are taken. -/
theorem gets_takeArguments {args : List (Expr R)} (h : ∀ e ∈ args, ReadsBack numeral e)
    (hspans : Spans (.leftParen :: (Expr.tokensAll numeral args ++ [.rightParen])) c.rest behind)
    (hfuel : 2 * (Expr.tokensAll numeral args).length + 2 ≤ fuel) :
    Gets (SameExprs args) behind (takeArguments fuel c) := by
  obtain ⟨fuel, rfl⟩ := Nat.exists_eq_add_of_le' (show 1 ≤ fuel by omega)
  obtain ⟨hpeek, hspans⟩ := of_spans_cons hspans
  rw [takeArguments, expect_eq_ok hpeek]
  show Gets _ _ (if c.skip.peek? = some .rightParen then _ else _)
  cases args with
  | nil =>
      obtain ⟨hclose, hrest⟩ := of_spans_cons hspans
      rw [if_pos hclose]
      exact ⟨rfl, of_spans_nil hrest⟩
  | cons e es =>
      obtain ⟨token, rest, htokens, hopens⟩ := tokensAll_opens (List.cons_ne_nil e es) h
      have hnext : c.skip.peek? = some token := by
        rw [htokens] at hspans
        exact next?_of_spans hspans
      rw [if_neg]
      · exact gets_takeMoreArguments (List.cons_ne_nil _ _) h hspans (by omega)
      · rw [hnext, Option.some.injEq]
        rintro rfl
        exact hopens

theorem readsBack_call (column : Column) (name : String) {args : List (Expr R)}
    (h : ∀ e ∈ args, ReadsBack numeral e) : ReadsBack numeral (.call column name args) where
  opens := ⟨_, _, rfl, trivial⟩
  takes {fuel least c behind} hspans _ _ hfuel := by
    rw [Expr.tokens] at hspans hfuel
    simp only [List.length_cons, List.length_append, List.length_nil] at hfuel
    obtain ⟨fuel, rfl⟩ := Nat.exists_eq_add_of_le' (show 2 ≤ fuel by omega)
    obtain ⟨hpeek, hspans⟩ := of_spans_cons hspans
    have hopen : c.skip.peek? = some .leftParen := next?_of_spans hspans
    refine takes_of_takeOperand ?_ (Nat.succ_pos _)
    rw [takeOperand]
    simp only [hpeek]
    rw [if_pos hopen]
    refine (gets_takeArguments h hspans (by omega)).bind fun r hr => ?_
    exact ⟨congrArg (Expr.call {} name) hr.1, hr.2⟩

/-- What an expression is written with is read as that expression. -/
theorem readsBack_of_isWritable (h : e.IsWritable numeral) : ReadsBack numeral e := by
  induction h with
  | number h => exact readsBack_number _ h
  | string => exact readsBack_string _ _
  | var => exact readsBack_var _ _
  | call _ ih => exact readsBack_call _ _ ih
  | unary _ ih => exact ih.unary _ _
  | binary _ _ ihl ihr => exact ihl.binary _ _ ihr

end Cursor

open Token

/-- Reading undoes writing. Where the tokens of an expression stand, with parentheses only around operands that hold together
more loosely than their places ask for, the reader of expressions takes exactly these tokens and gets the same expression, up to
columns. What stands behind them may be anything but an operator between two operands and, behind a name, a parenthesis. -/
theorem written_expression_read {numeral : R → String} {e : Expr R} (h : e.IsWritable numeral)
    {c : Cursor} {taken behind : List (Column × Token)} (hrest : c.rest = taken ++ behind)
    (htaken : taken.map Prod.snd = e.tokens numeral)
    (hoperator : ∀ sign, next? behind = some (.operator sign) → sign.precedence? = none)
    (hparen : ∀ name, (e.tokens numeral).getLast? = some (.name name) → next? behind ≠ some .leftParen)
    {fuel : Nat} (hfuel : 2 * taken.length ≤ fuel) :
    ∃ e' c', c.takeExpression fuel 0 = .ok (e', c') ∧ e'.bare = e.bare ∧ c'.rest = behind := by
  have hend : EndsAt 0 (e.tokens numeral) behind := by
    refine ⟨fun sign hsign hbinary => ?_, hparen⟩
    rw [hoperator sign hsign] at hbinary
    cases hbinary
  have hlength : (e.tokens numeral).length = taken.length := by
    rw [← htaken, List.length_map]
  rw [← hlength] at hfuel
  exact ((Cursor.readsBack_of_isWritable h).gets ⟨taken, hrest, htaken⟩ hend hfuel).exists_ok

def two : Expr Float :=
  .number {} (NumberSystem.ofNumeral (.decimal false 2 0))

theorem isWritable_two : two.IsWritable (fun _ => "2") := by
  have hread : Numeral.read? "2" = some (.decimal false 2 0) := by decide +kernel
  refine .number ?_
  rw [NumberSystem.read?, hread, Option.map_some]

/-- Operators of all strengths, on both sides of each other. -/
def formula : Expr Float :=
  let sum : Expr Float := .binary .add {} (.var {} "B") (.call {} "F" [two, .string {} "X"])
  .binary .or {} (.unary .not {} (.binary .equal {} (.var {} "A") two))
    (.binary .multiply {} (.unary .negate {} (.binary .power {} sum two)) (.unary .negate {} (.var {} "C")))

/-- The tokens of `NOT A=2 OR -(B+F(2,"X"))^2*-C`. -/
def formulaTokens : List Token :=
  [.operator .not, .name "A", .operator .equal, .number "2", .operator .or, .operator .minus, .leftParen,
    .name "B", .operator .plus, .name "F", .leftParen, .number "2", .comma, .string "X", .rightParen,
    .rightParen, .operator .caret, .number "2", .operator .times, .operator .minus, .name "C"]

theorem written_expression_read_formula :
    formula.IsWritable (fun _ => "2") ∧ formula.tokens (fun _ => "2") = formulaTokens ∧
      ∃ e' c', Cursor.takeExpression (R := Float) 42 0
          { rest := formulaTokens.map fun token => ({}, token) } = .ok (e', c') ∧
        e'.bare = formula.bare ∧ c'.rest = [] := by
  have htokens : formula.tokens (fun _ => "2") = formulaTokens := rfl
  have hsum : ∀ e ∈ [two, .string {} "X"], e.IsWritable (fun _ => "2") := by
    rw [List.forall_mem_cons, List.forall_mem_singleton]
    exact ⟨isWritable_two, .string⟩
  have hwritable : formula.IsWritable (fun _ => "2") :=
    .binary (.unary (.binary .var isWritable_two))
      (.binary (.unary (.binary (.binary .var (.call hsum)) isWritable_two)) (.unary .var))
  refine ⟨hwritable, htokens, ?_⟩
  refine written_expression_read hwritable (List.append_nil _).symm ?_ (by simp [next?]) (by simp [next?])
    (by decide)
  rw [htokens]
  rfl

end LineBasic
