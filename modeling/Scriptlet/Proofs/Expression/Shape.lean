import Scriptlet.Proofs.Parentheses

/-! The shape of a statement, and what post order keeps of it.

Putting a statement in post order asks only that its parentheses match; building asks only that
every operator finds its operands on the stack. Neither looks at the order of operands and
operators. That order follows from a count: a statement that leaves exactly one tree has had an
operand wherever one was due. -/

namespace Scriptlet

/-! ## Parentheses -/

/-- Whether the parentheses match, with `depth` of them open in front. -/
def parensMatch : Nat → List Token → Bool
  | depth, [] => depth == 0
  | depth, next :: later =>
      if next.kind = .openParen then parensMatch (depth + 1) later
      else if next.kind = .closeParen then depth != 0 && parensMatch (depth - 1) later
      else parensMatch depth later

theorem parensMatch_iff (depth : Nat) (tokens : List Token) :
    parensMatch depth tokens ↔
      Partnered depth tokens ∧ closings tokens = depth + openings tokens := by
  induction tokens generalizing depth with
  | nil => simp [parensMatch, partnered_nil, @eq_comm Nat 0]
  | cons next later induction =>
      rw [parensMatch, partnered_cons]
      by_cases opens : next.kind = .openParen
      · simp [induction, opens, Nat.add_assoc, Nat.add_comm 1]
      by_cases closes : next.kind = .closeParen
      · cases depth with
        | zero => simp [closes]
        | succ outer =>
            have count : closings later + 1 = outer + 1 + openings later ↔
                closings later = outer + openings later := by omega
            simp [induction, closes, count]
      · simp [induction, opens, closes]

/-- A statement can be put in post order exactly if its parentheses match. -/
theorem statementOrder_isOk_iff {statement : List Token} (plain : OneStatement statement) :
    (∃ run, statementOrder Kind.binding? statement = .ok run) ↔ parensMatch 0 statement := by
  have unbound : Kind.binding? .openParen = none := rfl
  rw [statementOrder_isOk_iff_paired unbound plain, parensMatch_iff, Nat.zero_add]
  exact ⟨fun paired => ⟨paired.partnered, paired.settled⟩, fun both => ⟨both.1, both.2⟩⟩

/-! ## Operands and operators in turn -/

/-- Whether operands and operators take turns and the parentheses match. An operand is `due` at the
start, behind an operator and behind an open parenthesis. -/
def shaped : Bool → Nat → List Token → Bool
  | due, depth, [] => !due && depth == 0
  | true, depth, next :: later =>
      if next.kind.isOperand then shaped false depth later
      else if next.kind = .openParen then shaped true (depth + 1) later
      else next.leads && shaped true depth later
  | false, depth, next :: later =>
      if next.kind = .closeParen then depth != 0 && shaped false (depth - 1) later
      else next.kind.isBinary && shaped true depth later

theorem Token.not_leads_of_isOperand {token : Token} (isOperand : token.kind.isOperand) :
    token.leads = false := by
  rcases token with ⟨kind, text, position⟩
  cases kind <;> first | rfl | cases isOperand

theorem Token.not_isOperand_of_leads {token : Token} (leads : token.leads) :
    token.kind.isOperand = false := by
  cases isOperand : token.kind.isOperand with
  | false => rfl
  | true =>
      rw [not_leads_of_isOperand isOperand] at leads
      cases leads

theorem Token.kind_ne_openParen_of_leads {token : Token} (leads : token.leads) :
    token.kind ≠ .openParen := by
  intro opens
  rw [Token.leads, readSign_of_kind_ne (by rw [opens]; exact Kind.noConfusion), opens] at leads
  cases leads

theorem Kind.ne_closeParen_of_isBinary {kind : Kind} (isBinary : kind.isBinary) :
    kind ≠ .closeParen := by
  rintro rfl
  cases isBinary

theorem Kind.ne_subtract_of_isOperand {kind : Kind} (isOperand : kind.isOperand) :
    kind ≠ .binary .subtract := by
  rintro rfl
  cases isOperand

theorem Token.not_isParen_of_isOperand {token : Token} (isOperand : token.kind.isOperand) :
    token.isParen = false := by
  rcases token with ⟨kind, text, position⟩
  cases kind <;> first | rfl | cases isOperand

theorem Token.not_isParen_of_isUnary {token : Token} (isUnary : token.kind.isUnary) :
    token.isParen = false := by
  rcases token with ⟨kind, text, position⟩
  cases kind <;> first | rfl | cases isUnary

theorem Token.not_isParen_of_isBinary {token : Token} (isBinary : token.kind.isBinary) :
    token.isParen = false := by
  rcases token with ⟨kind, text, position⟩
  cases kind <;> first | rfl | cases isBinary

theorem Token.not_isParen_of_leads {token : Token} (leads : token.leads) :
    token.isParen = false := by
  rcases token.readSign_kind none with same | ⟨sign, _⟩
  · rw [Token.leads, same] at leads
    exact not_isParen_of_isUnary leads
  · rw [isParen, sign]
    rfl

/-- An expression fits wherever an operand is due. -/
theorem Expression.shaped_append (expression : Expression) (depth : Nat) (later : List Token) :
    shaped true depth (expression.tokens ++ later) = shaped false depth later := by
  induction expression generalizing depth later with
  | operand token isOperand =>
      rw [tokens, List.singleton_append, shaped, if_pos isOperand]
  | group opening closing opens closes inner induction =>
      have notOperand : ¬opening.kind.isOperand := by rw [opens]; exact Bool.false_ne_true
      rw [tokens, List.cons_append, List.append_assoc, shaped, if_neg notOperand, if_pos opens,
        induction, List.singleton_append, shaped, if_pos closes, Nat.add_sub_cancel]
      simp
  | unary operator leads argument induction =>
      rw [tokens, List.cons_append, shaped, Token.not_isOperand_of_leads leads,
        if_neg (Token.kind_ne_openParen_of_leads leads), induction, leads]
      rfl
  | binary operator isBinary left right leftInduction rightInduction =>
      rw [tokens, List.append_assoc, leftInduction, List.cons_append, shaped,
        if_neg (Kind.ne_closeParen_of_isBinary isBinary), isBinary, rightInduction, Bool.true_and]

/-! ## Counting

Each operand adds one tree and each operator between two takes one away. -/

def Token.weight (token : Token) : Int :=
  if token.kind.isOperand then 1 else if token.kind.isBinary then -1 else 0

def balance (tokens : List Token) : Int :=
  (tokens.map Token.weight).sum

@[simp] theorem balance_nil : balance [] = 0 := rfl

@[simp] theorem balance_cons (token : Token) (later : List Token) :
    balance (token :: later) = token.weight + balance later := by
  simp [balance]

theorem Token.weight_paren {token : Token} (paren : token.isParen) : token.weight = 0 := by
  simp only [isParen, Bool.or_eq_true, beq_iff_eq] at paren
  rcases paren with opens | closes
  · rw [weight, opens]
    rfl
  · rw [weight, closes]
    rfl

theorem balance_filter_parens (tokens : List Token) :
    balance (tokens.filter (!·.isParen)) = balance tokens := by
  induction tokens with
  | nil => rfl
  | cons token later induction =>
      by_cases paren : token.isParen
      · rw [List.filter_cons_of_neg (by simpa using paren), induction, balance_cons,
          Token.weight_paren paren, Int.zero_add]
      · rw [List.filter_cons_of_pos (by simpa using paren), balance_cons, balance_cons, induction]

theorem Kind.not_isOperand_of_isUnary {kind : Kind} (isUnary : kind.isUnary) :
    kind.isOperand = false ∧ kind.isBinary = false := by
  cases kind <;> first | exact ⟨rfl, rfl⟩ | cases isUnary

theorem Kind.not_isOperand_of_isBinary {kind : Kind} (isBinary : kind.isBinary) :
    kind.isOperand = false := by
  cases kind <;> first | rfl | cases isBinary

/-- The trees that a run leaves are as many as its balance says. -/
theorem length_absorb_all {limit : Nat} {run : List Token} {operands after : List Operand}
    {symbols final : Symbols}
    (absorbed : (run.foldlM (absorb limit) operands).runFrom symbols = (.ok after, final)) :
    (after.length : Int) = operands.length + balance run ∧
      (∀ token ∈ run, token.isParen = false) ∧ (run ≠ [] → after ≠ []) := by
  induction run generalizing operands symbols with
  | nil =>
      cases absorbed
      simp
  | cons token later induction =>
      rw [List.foldlM_cons, Parse.runFrom_bind_eq_ok] at absorbed
      rcases absorbed with ⟨middle, between, first, rest⟩
      rcases induction rest with ⟨count, noParens, more⟩
      have step : (middle.length : Int) = operands.length + token.weight ∧
          token.isParen = false ∧ middle ≠ [] := by
        rcases absorb_cases first with ⟨isOperand, rfl, _⟩ |
          ⟨isUnary, _, operand, below, rfl, rfl⟩ | ⟨isBinary, _, right, left, below, rfl, rfl⟩
        · refine ⟨?_, ?_, List.cons_ne_nil _ _⟩
          · simp [Token.weight, isOperand]
          · exact Token.not_isParen_of_isOperand isOperand
        · have not := Kind.not_isOperand_of_isUnary isUnary
          refine ⟨?_, ?_, List.cons_ne_nil _ _⟩
          · simp [Token.weight, not]
          · exact Token.not_isParen_of_isUnary isUnary
        · have not := Kind.not_isOperand_of_isBinary isBinary
          refine ⟨?_, ?_, List.cons_ne_nil _ _⟩
          · have weighs : token.weight = -1 := by simp [Token.weight, not, isBinary]
            rw [weighs, List.length_cons, List.length_cons, List.length_cons]
            omega
          · exact Token.not_isParen_of_isBinary isBinary
      refine ⟨?_, ?_, ?_⟩
      · rw [count, step.1, balance_cons, Int.add_assoc]
      · intro selected member
        rcases List.mem_cons.mp member with rfl | member
        · exact step.2.1
        · exact noParens selected member
      · intro _
        cases later with
        | nil =>
            cases rest
            exact step.2.2
        | cons => exact more (List.cons_ne_nil _ _)

/-! ## Statements as they are scanned -/

/-- The kinds that a scanner gives inside a statement. It never gives a negation: what a minus sign
means is decided later. -/
def Kind.isScanned : Kind → Bool
  | .binary _ | .unary .not | .assign | .command _ | .openParen | .closeParen => true
  | kind => kind.isOperand

/-- A statement as it stands between two boundaries: nothing that may begin a statement follows a
complete operand, or there would be a boundary between them. -/
structure Scanned (statement : List Token) : Prop where
  kinds : ∀ token ∈ statement, token.kind.isScanned
  unbroken : statement.IsChain fun earlier later =>
    ¬(earlier.kind.closesOperand ∧ later.kind.opensStatement)

theorem Scanned.oneStatement {statement : List Token} (scanned : Scanned statement) :
    OneStatement statement := by
  intro token member
  have kind := scanned.kinds token member
  cases found : token.kind <;> simp_all [Kind.isScanned, Kind.isOperand, Kind.endsStatement]

theorem Scanned.tail {first : Token} {later : List Token} (scanned : Scanned (first :: later)) :
    Scanned later :=
  ⟨fun token member => scanned.kinds token (List.mem_cons_of_mem _ member), scanned.unbroken.tail⟩

/-- Behind a complete operand nothing begins a statement. -/
theorem Scanned.head_of_closesOperand {first : Token} {later : List Token}
    (scanned : Scanned (first :: later)) (closes : first.kind.closesOperand) :
    ∀ next ∈ later.head?, next.kind.opensStatement = false := by
  intro next member
  simpa [closes] using scanned.unbroken.rel_head? member

theorem Token.weight_operand {token : Token} (isOperand : token.kind.isOperand) :
    token.weight = 1 := by
  rw [weight, if_pos isOperand]

theorem Token.weight_unary {token : Token} (isUnary : token.kind.isUnary) : token.weight = 0 := by
  rw [weight, (Kind.not_isOperand_of_isUnary isUnary).1, (Kind.not_isOperand_of_isUnary isUnary).2]
  rfl

theorem Token.weight_binary {token : Token} (isBinary : token.kind.isBinary) :
    token.weight = -1 := by
  rw [weight, Kind.not_isOperand_of_isBinary isBinary, isBinary]
  rfl

/-- What a scanned token can be where an operand is due; the last two do not belong there. -/
theorem Token.cases_of_due {token : Token} (scanned : token.kind.isScanned) :
    token.kind.isOperand ∨ token.kind = .openParen ∨ token.leads ∨
      token.kind = .closeParen ∨ (token.kind.isBinary ∧ token.kind ≠ .binary .subtract) := by
  rcases token with ⟨kind, text, position⟩
  cases kind with
  | binary operator =>
      cases operator <;> simp [Kind.isBinary, leads, readSign, operandDue, Kind.isUnary]
  | _ => simp_all [Kind.isScanned, Kind.isOperand, Kind.isBinary, leads, readSign, Kind.isUnary]

/-- What a scanned token can be behind a complete operand. -/
theorem Token.cases_of_not_due {token : Token} (scanned : token.kind.isScanned)
    (continues : token.kind.opensStatement = false) :
    token.kind = .closeParen ∨ token.kind.isBinary := by
  rcases token with ⟨kind, text, position⟩
  cases kind with
  | unary operator =>
      cases operator <;> simp_all [Kind.isScanned, Kind.opensStatement, Kind.isOperand]
  | _ => simp_all [Kind.isScanned, Kind.opensStatement, Kind.isOperand, Kind.isBinary]

theorem parensMatch_open {token : Token} (opens : token.kind = .openParen) (depth : Nat)
    (later : List Token) :
    parensMatch depth (token :: later) = parensMatch (depth + 1) later := by
  rw [parensMatch, if_pos opens]

theorem parensMatch_close {token : Token} (closes : token.kind = .closeParen) (depth : Nat)
    (later : List Token) :
    parensMatch depth (token :: later) = (depth != 0 && parensMatch (depth - 1) later) := by
  rw [parensMatch, if_neg (by rw [closes]; exact Kind.noConfusion), if_pos closes]

theorem parensMatch_other {token : Token} (notParen : token.isParen = false) (depth : Nat)
    (later : List Token) : parensMatch depth (token :: later) = parensMatch depth later := by
  simp only [Token.isParen, Bool.or_eq_false_iff, beq_eq_false_iff_ne] at notParen
  rw [parensMatch, if_neg notParen.1, if_neg notParen.2]

/-- A statement whose parentheses match has at most the one operand that is due over and above its
operators, and has it only if operands and operators take turns. -/
theorem Scanned.balance_le {statement : List Token} (scanned : Scanned statement)
    {previous : Option Kind} {due : Bool} (state : operandDue previous = due)
    {depth : Nat} (matched : parensMatch depth statement)
    (opening : due = false → ∀ next ∈ statement.head?, next.kind.opensStatement = false) :
    balance (readSigns previous statement) ≤ (if due then 1 else 0) ∧
      (balance (readSigns previous statement) = (if due then 1 else 0) →
        shaped due depth statement) := by
  induction statement generalizing previous due depth with
  | nil =>
      rw [parensMatch, beq_iff_eq] at matched
      cases due <;> simp [readSigns, shaped, matched]
  | cons next later induction =>
      have kind := scanned.kinds next List.mem_cons_self
      rw [readSigns, balance_cons]
      cases due with
      | false =>
          rw [Token.readSign_of_not_due state]
          rcases Token.cases_of_not_due kind (opening rfl next rfl) with closes | isBinary
          · rw [parensMatch_close closes, Bool.and_eq_true] at matched
            have after : operandDue (some next.kind) = false := by rw [closes]; rfl
            have rest := induction scanned.tail after matched.2
              fun _ => scanned.head_of_closesOperand (by rw [closes]; rfl)
            rw [Token.weight_paren (by rw [Token.isParen, closes]; rfl), shaped, if_pos closes,
              matched.1, Bool.true_and, Int.zero_add]
            exact rest
          · rw [parensMatch_other (Token.not_isParen_of_isBinary isBinary)] at matched
            have rest := induction scanned.tail (operandDue_operator (.inr isBinary)) matched
              Bool.noConfusion
            rw [Token.weight_binary isBinary, shaped,
              if_neg (Kind.ne_closeParen_of_isBinary isBinary), isBinary, Bool.true_and]
            simp only [if_true, Bool.false_eq_true, if_false] at rest ⊢
            exact ⟨by omega, fun equal => rest.2 (by omega)⟩
      | true =>
          rw [Token.readSign_of_due state]
          rcases Token.cases_of_due kind with
            isOperand | opens | leads | closes | ⟨isBinary, notSign⟩
          · have same := Token.readSign_of_kind_ne (Kind.ne_subtract_of_isOperand isOperand) none
            rw [parensMatch_other (Token.not_isParen_of_isOperand isOperand)] at matched
            have rest := induction scanned.tail (operandDue_operand isOperand) matched
              fun _ => scanned.head_of_closesOperand (by simp [Kind.closesOperand, isOperand])
            rw [same, Token.weight_operand isOperand, shaped, if_pos isOperand]
            simp only [if_true, Bool.false_eq_true, if_false] at rest ⊢
            exact ⟨by omega, fun equal => rest.2 (by omega)⟩
          · have same : next.readSign none = next :=
              Token.readSign_of_kind_ne (by rw [opens]; exact Kind.noConfusion) _
            have after : operandDue (some next.kind) = true := by rw [opens]; rfl
            have notOperand : ¬next.kind.isOperand := by rw [opens]; exact Bool.false_ne_true
            rw [parensMatch_open opens] at matched
            rw [same, Token.weight_paren (by rw [Token.isParen, opens]; rfl), Int.zero_add, shaped,
              if_neg notOperand, if_pos opens]
            exact induction scanned.tail after matched Bool.noConfusion
          · have notOperand : ¬next.kind.isOperand := by
              rw [Token.not_isOperand_of_leads leads]
              exact Bool.false_ne_true
            rw [parensMatch_other (Token.not_isParen_of_leads leads)] at matched
            rw [Token.weight_unary leads, Int.zero_add, shaped, if_neg notOperand,
              if_neg (Token.kind_ne_openParen_of_leads leads), leads, Bool.true_and]
            exact induction scanned.tail (operandDue_operator (.inl leads)) matched
              Bool.noConfusion
          · have same : next.readSign none = next :=
              Token.readSign_of_kind_ne (by rw [closes]; exact Kind.noConfusion) _
            rw [parensMatch_close closes, Bool.and_eq_true] at matched
            have after : operandDue (some next.kind) = false := by rw [closes]; rfl
            have rest := induction scanned.tail after matched.2
              fun _ => scanned.head_of_closesOperand (by rw [closes]; rfl)
            rw [same, Token.weight_paren (by rw [Token.isParen, closes]; rfl), Int.zero_add]
            simp only [if_true, Bool.false_eq_true, if_false] at rest ⊢
            exact ⟨by omega, fun equal => by omega⟩
          · rw [parensMatch_other (Token.not_isParen_of_isBinary isBinary)] at matched
            have rest := induction scanned.tail (operandDue_operator (.inr isBinary)) matched
              Bool.noConfusion
            rw [Token.readSign_of_kind_ne notSign, Token.weight_binary isBinary]
            simp only [if_true] at rest ⊢
            exact ⟨by omega, fun equal => by omega⟩

end Scriptlet
