import Scriptlet.Proofs.Expression.Recognition
import Scriptlet.Proofs.InOrder

/-! When a statement keeps its order.

An operator that is released before its right operand has been read takes operands from its left
instead. That happens exactly if a command stands directly behind an operator that does not admit
it. -/

namespace Scriptlet

/-! ## Statements that keep their order -/

theorem Token.written_readSign {token : Token} (scanned : token.kind.isScanned)
    (previous : Option Kind) : (token.readSign previous).written = token := by
  rcases token with ⟨kind, text, position⟩
  unfold readSign
  split
  · rename_i sign
    cases sign.1
    rfl
  · cases kind with
    | unary operator => cases operator <;> first | rfl | cases scanned
    | _ => rfl

theorem Token.written_of_isOperand {token : Token} (isOperand : token.kind.isOperand) :
    token.written = token := by
  rcases token with ⟨kind, text, position⟩
  cases kind <;> first | rfl | cases isOperand

theorem Token.written_of_isBinary {token : Token} (isBinary : token.kind.isBinary) :
    token.written = token := by
  rcases token with ⟨kind, text, position⟩
  cases kind <;> first | rfl | cases isBinary

theorem Token.isParen_of_openParen {token : Token} (opens : token.kind = .openParen) :
    token.isParen := by
  simp [isParen, opens]

theorem Token.isParen_of_closeParen {token : Token} (closes : token.kind = .closeParen) :
    token.isParen := by
  simp [isParen, closes]

/-- Gathering the post order of an expression puts its tokens in order, without the parentheses. -/
theorem Expression.gather_postOrder (expression : Expression)
    (scanned : ∀ token ∈ expression.tokens, token.kind.isScanned) (texts : List (List Token)) :
    expression.postOrder.foldlM gather texts =
      some (expression.tokens.filter (!·.isParen) :: texts) := by
  induction expression generalizing texts with
  | operand token isOperand =>
      rw [postOrder, tokens, List.foldlM_cons, gather_operand isOperand,
        Token.written_of_isOperand isOperand,
        List.filter_cons_of_pos (by simp [Token.not_isParen_of_isOperand isOperand])]
      rfl
  | group opening closing opens closes inner induction =>
      have inside : ∀ token ∈ inner.tokens, token.kind.isScanned := by
        intro token member
        apply scanned
        simp [tokens, member]
      rw [postOrder, tokens, induction inside,
        List.filter_cons_of_neg (by simp [Token.isParen_of_openParen opens]), List.filter_append,
        List.filter_cons_of_neg (by simp [Token.isParen_of_closeParen closes]), List.filter_nil,
        List.append_nil]
  | unary operator leads argument induction =>
      have written := Token.written_readSign (scanned operator List.mem_cons_self) none
      rw [postOrder, tokens, List.foldlM_append,
        induction fun token member => scanned token (List.mem_cons_of_mem _ member),
        List.filter_cons_of_pos (by simp [Token.not_isParen_of_leads leads])]
      change [operator.readSign none].foldlM gather _ = _
      rw [List.foldlM_cons, gather_unary leads, written]
      rfl
  | binary operator isBinary left right leftInduction rightInduction =>
      rw [tokens] at scanned
      rw [postOrder, tokens, List.foldlM_append, List.foldlM_append, leftInduction
        fun token member => scanned token (List.mem_append_left _ member)]
      change (right.postOrder.foldlM gather _ >>= _) = _
      rw [rightInduction fun token member =>
        scanned token (List.mem_append_right _ (List.mem_cons_of_mem _ member))]
      change [operator].foldlM gather _ = _
      rw [List.foldlM_cons, gather_binary isBinary, Token.written_of_isBinary isBinary,
        List.filter_append,
        List.filter_cons_of_pos (by simp [Token.not_isParen_of_isBinary isBinary])]
      rfl

/-! ## Texts and their parts -/

/-- A token that stands in a text was there before or has been taken in. -/
theorem gather_mem {texts after : List (List Token)} {next : Token}
    (gathered : gather texts next = some after) (filled : [] ∉ texts) :
    [] ∉ after ∧ ∀ text ∈ after, ∀ token ∈ text,
      token = next.written ∨ ∃ earlier ∈ texts, token ∈ earlier := by
  rcases gather_cases gathered with ⟨_, rfl⟩ | ⟨_, top, below, rfl, rfl⟩ |
    ⟨_, right, left, below, rfl, rfl⟩
  · refine ⟨by simpa using filled, ?_⟩
    intro text member token inside
    rcases List.mem_cons.mp member with rfl | member
    · exact .inl (List.mem_singleton.mp inside)
    · exact .inr ⟨text, member, inside⟩
  · refine ⟨by simpa using fun member => filled (List.mem_cons_of_mem _ member), ?_⟩
    intro text member token inside
    rcases List.mem_cons.mp member with rfl | member
    · rcases List.mem_cons.mp inside with same | inside
      · exact .inl same
      · exact .inr ⟨top, List.mem_cons_self, inside⟩
    · exact .inr ⟨text, List.mem_cons_of_mem _ member, inside⟩
  · refine ⟨?_, ?_⟩
    · simpa using fun member =>
        filled (List.mem_cons_of_mem _ (List.mem_cons_of_mem _ member))
    · intro text member token inside
      rcases List.mem_cons.mp member with rfl | member
      · rcases List.mem_append.mp inside with inside | inside
        · exact .inr ⟨left, List.mem_cons_of_mem _ List.mem_cons_self, inside⟩
        · rcases List.mem_cons.mp inside with same | inside
          · exact .inl same
          · exact .inr ⟨right, List.mem_cons_self, inside⟩
      · exact .inr ⟨text, List.mem_cons_of_mem _ (List.mem_cons_of_mem _ member), inside⟩

/-- No text is empty, and no token comes from elsewhere. -/
theorem gather_all_mem {run : List Token} {texts after : List (List Token)}
    (gathered : run.foldlM gather texts = some after) (filled : [] ∉ texts) :
    [] ∉ after ∧ ∀ text ∈ after, ∀ token ∈ text,
      (∃ next ∈ run, token = next.written) ∨ ∃ earlier ∈ texts, token ∈ earlier := by
  induction run generalizing texts with
  | nil =>
      cases gathered
      exact ⟨filled, fun text member token inside => .inr ⟨text, member, inside⟩⟩
  | cons next later induction =>
      rw [List.foldlM_cons] at gathered
      cases step : gather texts next with
      | none =>
          rw [step] at gathered
          cases gathered
      | some middle =>
          rw [step] at gathered
          rcases gather_mem step filled with ⟨middleFilled, here⟩
          rcases induction gathered middleFilled with ⟨afterFilled, rest⟩
          refine ⟨afterFilled, ?_⟩
          intro text member token inside
          rcases rest text member token inside with
            ⟨taken, within, same⟩ | ⟨earlier, within, inside⟩
          · exact .inl ⟨taken, List.mem_cons_of_mem _ within, same⟩
          · exact (here earlier within token inside).imp_left
              fun same => ⟨next, List.mem_cons_self, same⟩

/-- What stands in order in a text goes on doing so. -/
theorem gather_all_sublist {run : List Token} {texts after : List (List Token)}
    (gathered : run.foldlM gather texts = some after) {text part : List Token}
    (member : text ∈ texts) (inside : part.Sublist text) :
    ∃ final ∈ after, part.Sublist final := by
  induction run generalizing texts text with
  | nil =>
      cases gathered
      exact ⟨text, member, inside⟩
  | cons token later induction =>
      rw [List.foldlM_cons] at gathered
      cases step : gather texts token with
      | none =>
          rw [step] at gathered
          cases gathered
      | some middle =>
          rw [step] at gathered
          have next : ∃ larger ∈ middle, part.Sublist larger := by
            rcases gather_cases step with ⟨_, rfl⟩ | ⟨_, top, below, rfl, rfl⟩ |
              ⟨_, right, left, below, rfl, rfl⟩
            · exact ⟨text, List.mem_cons_of_mem _ member, inside⟩
            · rcases List.mem_cons.mp member with rfl | member
              · exact ⟨_, List.mem_cons_self, inside.cons _⟩
              · exact ⟨text, List.mem_cons_of_mem _ member, inside⟩
            · rcases List.mem_cons.mp member with rfl | member
              · refine ⟨_, List.mem_cons_self, ?_⟩
                exact (inside.cons _).trans (List.sublist_append_right _ _)
              · rcases List.mem_cons.mp member with rfl | member
                · exact ⟨_, List.mem_cons_self, inside.trans (List.sublist_append_left _ _)⟩
                · exact ⟨text, List.mem_cons_of_mem _ member, inside⟩
          rcases next with ⟨larger, there, within⟩
          exact induction gathered there within

/-- An operator that has been released stands in front of a token that was released before it. -/
theorem gather_released {earlier later text : List Token} {operator : Token}
    (isOperator : operator.kind.isUnary ∨ operator.kind.isBinary)
    (gathered : (earlier ++ operator :: later).foldlM gather [] = some [text]) :
    ∃ token ∈ earlier, [operator.written, token.written].Sublist text := by
  rw [List.foldlM_append] at gathered
  cases first : earlier.foldlM gather [] with
  | none =>
      rw [first] at gathered
      cases gathered
  | some texts =>
      rw [first] at gathered
      change (operator :: later).foldlM gather texts = _ at gathered
      rw [List.foldlM_cons] at gathered
      cases step : gather texts operator with
      | none =>
          rw [step] at gathered
          cases gathered
      | some middle =>
          rw [step] at gathered
          rcases gather_all_mem first (List.not_mem_nil) with ⟨filled, origin⟩
          -- Whatever the operator takes as its last operand has been gathered before it.
          have taken : ∃ operand ∈ texts, ∃ whole ∈ middle,
              (operator.written :: operand).Sublist whole := by
            rcases gather_cases step with ⟨isOperand, rfl⟩ | ⟨_, top, below, rfl, rfl⟩ |
              ⟨_, right, left, below, rfl, rfl⟩
            · rcases isOperator with isUnary | isBinary
              · rw [(Kind.not_isOperand_of_isUnary isUnary).1] at isOperand
                cases isOperand
              · rw [Kind.not_isOperand_of_isBinary isBinary] at isOperand
                cases isOperand
            · exact ⟨top, List.mem_cons_self, _, List.mem_cons_self, .refl _⟩
            · exact ⟨right, List.mem_cons_self, _, List.mem_cons_self,
                List.sublist_append_right _ _⟩
          rcases taken with ⟨operand, member, whole, inside, part⟩
          cases operand with
          | nil => exact absurd member filled
          | cons token rest =>
              have pair : [operator.written, token].Sublist whole :=
                ((List.singleton_sublist.mpr List.mem_cons_self).cons_cons _).trans part
              rcases gather_all_sublist gathered inside pair with ⟨final, there, sublist⟩
              cases List.mem_singleton.mp there
              rcases origin _ member token List.mem_cons_self with ⟨next, within, same⟩ |
                ⟨_, impossible, _⟩
              · exact ⟨next, within, same ▸ sublist⟩
              · cases impossible

/-! ## Operators released too early -/

namespace Arrangement

/-- What has been put in order stays as it is. -/
theorem take_output {table : BindingTable} {state after : Arrangement} {next : Token}
    (taken : state.take table next = .ok after) :
    ∃ released, after.output = state.output ++ released := by
  rw [take] at taken
  cases accepted : accept table state.waiting (next.readSign state.previous) with
  | error error =>
      rw [accepted] at taken
      cases taken
  | ok step =>
      rw [accepted] at taken
      cases taken
      exact ⟨step.1, rfl⟩

theorem take_all_output {table : BindingTable} {statement : List Token}
    {state after : Arrangement} (taken : statement.foldlM (take table) state = .ok after) :
    ∃ released, after.output = state.output ++ released := by
  induction statement generalizing state with
  | nil =>
      cases taken
      exact ⟨[], (List.append_nil _).symm⟩
  | cons next later induction =>
      rw [List.foldlM_cons] at taken
      cases step : state.take table next with
      | error error =>
          rw [step] at taken
          cases taken
      | ok middle =>
          rw [step] at taken
          rcases take_output step with ⟨first, here⟩
          rcases induction taken with ⟨rest, there⟩
          exact ⟨first ++ rest, by rw [there, here, List.append_assoc]⟩

theorem finish_output {table : BindingTable} {statement run : List Token} {state : Arrangement}
    (finished : statement.foldlM (take table) state >>= finish = .ok run) :
    ∃ released, run = state.output ++ released := by
  cases taken : statement.foldlM (take table) state with
  | error error =>
      rw [taken] at finished
      cases finished
  | ok after =>
      rw [taken] at finished
      change (after.output ++ ·) <$> releaseAll after.waiting = .ok run at finished
      rcases take_all_output taken with ⟨released, same⟩
      cases last : releaseAll after.waiting with
      | error error =>
          rw [last] at finished
          cases finished
      | ok rest =>
          rw [last] at finished
          cases finished
          exact ⟨released ++ rest, by simp [same]⟩

/-- An operator releases exactly what yields to it. -/
theorem take_operator {state : Arrangement} {next : Token}
    (operator : (next.readSign state.previous).kind.isUnary ∨
      (next.readSign state.previous).kind.isBinary) :
    let token := next.readSign state.previous
    state.take Kind.binding? next =
      .ok ⟨state.output ++ state.waiting.takeWhile (·.yieldsTo Kind.binding? token.binding),
        some token.kind,
        token :: state.waiting.dropWhile (·.yieldsTo Kind.binding? token.binding)⟩ := by
  intro token
  apply take_of_accept
  have accepted := accept_operator operator
    (state.waiting.takeWhile (·.yieldsTo Kind.binding? token.binding))
    (state.waiting.dropWhile (·.yieldsTo Kind.binding? token.binding))
    (fun _ member => List.mem_takeWhile_imp member)
    (fun earlier member => by
      have stays := List.head?_dropWhile_not (·.yieldsTo Kind.binding? token.binding) state.waiting
      rw [Option.mem_def.mp member] at stays
      simpa using stays)
  rw [List.takeWhile_append_dropWhile] at accepted
  exact accepted

end Arrangement

theorem statementOrder_eq_ok {table : BindingTable} {before after run : List Token}
    (ordered : statementOrder table (before ++ after) = .ok run) :
    ∃ state, before.foldlM (Arrangement.take table) {} = .ok state ∧
      after.foldlM (Arrangement.take table) state >>= Arrangement.finish = .ok run := by
  rw [statementOrder, List.foldlM_append] at ordered
  cases first : before.foldlM (Arrangement.take table) {} with
  | error error =>
      rw [first] at ordered
      cases ordered
  | ok state =>
      rw [first] at ordered
      exact ⟨state, rfl, ordered⟩

/-- An operator in front of a command that it does not admit is released before anything behind it
has been read. -/
theorem released_before_command {before after run : List Token} {operator command : Token}
    (plain : OneStatement before)
    (isOperator : ∀ previous, (operator.readSign previous).kind.isUnary ∨
      (operator.readSign previous).kind.isBinary)
    (refuses : operator.kind.admitsCommand = false) (isCommand : command.kind.isCommand)
    (ordered : statementOrder Kind.binding? (before ++ operator :: command :: after) = .ok run) :
    ∃ previous earlier later, run = earlier ++ operator.readSign previous :: later ∧
      ∀ token ∈ earlier, token.isParen = false → token ∈ readSigns none before := by
  rcases statementOrder_eq_ok ordered with ⟨state, taken, rest⟩
  have commandSame (previous : Option Kind) : command.readSign previous = command :=
    Token.readSign_of_kind_ne (by rintro same; rw [same] at isCommand; cases isCommand) previous
  have commandUnary : command.kind.isUnary := by
    rcases command with ⟨kind, _, _⟩
    cases kind <;> first | rfl | cases isCommand
  generalize read : operator.readSign state.previous = waiting
  have waits : waiting.kind.isUnary ∨ waiting.kind.isBinary := read ▸ isOperator state.previous
  have yields : waiting.yieldsTo Kind.binding? command.binding = true := by
    rw [Token.yieldsTo_eq waits, Token.yieldsTo_command waits isCommand, ← read,
      Token.admitsCommand_readSign, refuses]
    rfl
  rw [List.foldlM_cons, Arrangement.take_operator (isOperator state.previous), read] at rest
  generalize released : state.waiting.takeWhile (·.yieldsTo Kind.binding? waiting.binding) =
    yielded at rest
  generalize state.waiting.dropWhile (·.yieldsTo Kind.binding? waiting.binding) = below at rest
  change (command :: after).foldlM (Arrangement.take Kind.binding?)
    ⟨state.output ++ yielded, some waiting.kind, waiting :: below⟩ >>= _ = _ at rest
  rw [List.foldlM_cons, Arrangement.take_operator (.inl (by rwa [commandSame])), commandSame,
    List.takeWhile_cons_of_pos yields] at rest
  rcases Arrangement.finish_output rest with ⟨later, whole⟩
  refine ⟨state.previous, state.output ++ yielded,
    below.takeWhile (·.yieldsTo Kind.binding? command.binding) ++ later, ?_, ?_⟩
  · rw [read, whole]
    simp only [List.append_assoc, List.cons_append]
  · intro token member notParen
    have kept : token ∈ (state.output ++ state.waiting).filter (!·.isParen) := by
      rw [List.mem_filter]
      refine ⟨?_, by simp [notParen]⟩
      rcases List.mem_append.mp member with member | member
      · exact List.mem_append_left _ member
      · rw [← released] at member
        exact List.mem_append_right _ (List.takeWhile_sublist _ |>.subset member)
    have same := (Arrangement.take_all_perm plain taken).mem_iff.mp kept
    exact (List.mem_filter.mp same).1

/-! ## One statement -/

theorem Token.spells_readSign {token : Token} (spells : token.kind.Spells token.text)
    (previous : Option Kind) :
    (token.readSign previous).kind.Spells (token.readSign previous).text := by
  unfold readSign
  split
  · rename_i sign
    rw [sign.1] at spells
    exact spells
  · exact spells

theorem exists_of_mem_readSigns {token : Token} {tokens : List Token} {previous : Option Kind}
    (member : token ∈ readSigns previous tokens) :
    ∃ original ∈ tokens, ∃ before, token = original.readSign before := by
  induction tokens generalizing previous with
  | nil => cases member
  | cons next later induction =>
      rw [readSigns] at member
      rcases List.mem_cons.mp member with same | member
      · exact ⟨next, List.mem_cons_self, previous, same⟩
      · rcases induction member with ⟨original, inside, found⟩
        exact ⟨original, List.mem_cons_of_mem _ inside, found⟩

/-- The tree of a statement reads as what its post order gathers to. -/
theorem statementTree_gather {limit : Nat} {run : List Token} {symbols later : Symbols}
    {tree : Tree} (spells : ∀ token ∈ run, token.kind.Spells token.text)
    (built : (statementTree limit run).runFrom symbols = (.ok (some tree), later)) :
    symbols.Extends later ∧ ∃ text, run.foldlM gather [] = some [text] ∧
      ∀ final, later.Extends final → tree.inOrder final = text := by
  rw [statementTree, Parse.runFrom_bind_eq_ok] at built
  rcases built with ⟨operands, middle, absorbed, completed⟩
  rcases completeStatement_eq_ok completed with ⟨rfl, ⟨_, impossible⟩ | ⟨only, rfl, same⟩⟩
  · cases impossible
  · cases same
    rcases ReadAs.absorb_all .nil spells absorbed with ⟨grown, gathered, whole, reads⟩
    rcases reads with _ | ⟨first, _ | _⟩
    exact ⟨grown, _, whole, first⟩

section

variable {statement run : List Token} {limit : Nat} {symbols later : Symbols} {tree : Tree}

/-- The tokens of a post order are those of its statement. -/
theorem Scanned.mem_of_mem_run (scanned : Scanned statement)
    (ordered : statementOrder Kind.binding? statement = .ok run)
    (built : (statementTree limit run).runFrom symbols = (.ok (some tree), later))
    {token : Token} (member : token ∈ run) :
    token.isParen = false ∧ ∃ original ∈ statement, ∃ before, token = original.readSign before := by
  rw [statementTree, Parse.runFrom_bind_eq_ok] at built
  rcases built with ⟨operands, middle, absorbed, _⟩
  have notParen := (length_absorb_all absorbed).2.1 token member
  have kept := (statementOrder_perm scanned.oneStatement ordered).mem_iff.mp
    (List.mem_filter.mpr ⟨member, by simp [notParen]⟩)
  exact ⟨notParen, exists_of_mem_readSigns (List.mem_filter.mp kept).1⟩

/-- What refuses a command behind it is an operator. -/
theorem Scanned.isOperator_before_command {before after : List Token} {operator command : Token}
    (scanned : Scanned (before ++ operator :: command :: after))
    (isCommand : command.kind.isCommand) (refuses : operator.kind.admitsCommand = false)
    (previous : Option Kind) :
    (operator.readSign previous).kind.isUnary ∨ (operator.readSign previous).kind.isBinary := by
  have kind := scanned.kinds operator (by simp)
  have apart := (List.isChain_append_cons_cons.mp scanned.unbroken).2.1
  have starts : command.kind.opensStatement := by
    rcases command with ⟨commandKind, _, _⟩
    cases commandKind <;> first | rfl | cases isCommand
  have notClosing : operator.kind.closesOperand = false := by simpa [starts] using apart
  rcases operator.readSign_kind previous with same | ⟨_, negates⟩
  · rw [same]
    rcases operator with ⟨operatorKind, _, _⟩
    cases operatorKind <;> simp_all [Kind.isScanned, Kind.isOperand, Kind.closesOperand,
      Kind.isUnary, Kind.isBinary, Kind.admitsCommand]
  · rw [negates]
    exact .inl rfl

/-- An accepted statement is read in its own order exactly if every command in it leads. -/
theorem Scanned.inOrder_eq_iff (scanned : Scanned statement)
    (spells : ∀ token ∈ statement, token.kind.Spells token.text)
    (placed : statement.Pairwise Token.Before)
    (ordered : statementOrder Kind.binding? statement = .ok run)
    (built : (statementTree limit run).runFrom symbols = (.ok (some tree), later))
    {final : Symbols} (grown : later.Extends final) :
    tree.inOrder final = statement.filter (!·.isParen) ↔ CommandsLead statement := by
  have runSpells : ∀ token ∈ run, token.kind.Spells token.text := by
    intro token member
    rcases (scanned.mem_of_mem_run ordered built member).2 with ⟨original, inside, before, rfl⟩
    exact Token.spells_readSign (spells original inside) before
  rcases (statementTree_gather runSpells built).2 with ⟨text, gathered, reads⟩
  rw [reads final grown]
  constructor
  · intro same
    rw [CommandsLead, List.isChain_iff_forall_rel_of_append_cons_cons]
    intro operator command before after split isCommand
    by_contra refuses
    subst split
    have isOperator := scanned.isOperator_before_command isCommand (by simpa using refuses)
    have plain : OneStatement before :=
      fun token member => scanned.oneStatement token (List.mem_append_left _ member)
    rcases released_before_command plain isOperator (by simpa using refuses) isCommand ordered with
      ⟨previous, earlier, later, rfl, origin⟩
    rcases gather_released (isOperator previous) gathered with ⟨token, member, pair⟩
    have notParen := (scanned.mem_of_mem_run ordered built (List.mem_append_left _ member)).1
    rcases exists_of_mem_readSigns (origin token member notParen) with ⟨original, inside, sign, rfl⟩
    rw [Token.written_readSign (scanned.kinds original (List.mem_append_left _ inside)),
      Token.written_readSign (scanned.kinds operator (by simp)), same] at pair
    have regrouped : operator.Before original := by
      simpa using placed.sublist (pair.trans List.filter_sublist)
    have asWritten : original.Before operator :=
      (List.pairwise_append.mp placed).2.2 original inside operator List.mem_cons_self
    exact asWritten.asymm regrouped
  · intro leads
    rcases scanned.statementTree_cases ordered built with ⟨impossible, _⟩ | ⟨_, shape⟩
    · cases impossible
    rcases statement_of_shaped shape leads with ⟨expression, _, tokens, _, order⟩
    cases ordered.symm.trans order
    have whole := expression.gather_postOrder (by rw [tokens]; exact scanned.kinds) []
    rw [gathered, tokens] at whole
    cases whole
    rfl

end

end Scriptlet
