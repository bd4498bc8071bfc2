import Scriptlet.Proofs.Building

/-! The statements of a token sequence, run by run and block by block. -/

namespace Scriptlet

/-- Tokens without keywords that govern a block and without braces. -/
def Straight (tokens : List Token) : Prop :=
  ∀ token ∈ tokens, token.isStraight

/-! ## Boundaries -/

/-- Whether a token stands outside of every straight statement and every condition. -/
def Token.bounds (token : Token) : Bool :=
  token.kind.endsStatement || !token.isStraight

theorem Token.not_bounds {token : Token}
    (inside : token.kind.isOperand ∨ token.kind.isUnary ∨ token.kind.isBinary) :
    token.bounds = false := by
  rcases token with ⟨kind, text, position⟩
  cases kind <;> first | rfl | simp [Kind.isOperand, Kind.isUnary, Kind.isBinary] at inside

theorem Token.bounds_readSign (previous : Option Kind) (token : Token) :
    (token.readSign previous).bounds = token.bounds := by
  rcases token.readSign_kind previous with same | ⟨before, after⟩
  · rw [bounds, bounds, isStraight, isStraight, same]
  · rw [bounds, bounds, isStraight, isStraight, before, after]
    rfl

theorem Token.bounds_of_isParen {token : Token} (paren : token.isParen) :
    token.bounds = false := by
  rcases token with ⟨kind, text, position⟩
  cases kind <;> first | rfl | cases paren

/-! ## Where a sequence is cut -/

/-- A property of token sequences follows from what the first run adds to it. -/
theorem program_induction {motive : List Token → Prop}
    (straight : ∀ tokens, Straight tokens → motive tokens)
    (brace : ∀ before stop later, Straight before → stop.isStraight = false →
      stop.kind.isControl = false → motive (before ++ stop :: later))
    (control : ∀ before keyword later, Straight before → keyword.kind.isControl →
      (∀ shorter, shorter.length < later.length → motive shorter) →
      motive (before ++ keyword :: later))
    (tokens : List Token) : motive tokens := by
  have before : Straight (tokens.takeWhile Token.isStraight) :=
    fun token member => List.mem_takeWhile_imp member
  have whole := List.takeWhile_append_dropWhile (p := Token.isStraight) (l := tokens)
  cases found : tokens.dropWhile Token.isStraight with
  | nil =>
      rw [found, List.append_nil] at whole
      rw [← whole]
      exact straight _ before
  | cons stop later =>
      have stops := List.head?_dropWhile_not Token.isStraight tokens
      rw [found] at stops whole
      rw [← whole]
      cases isControl : stop.kind.isControl with
      | false => exact brace _ stop later before (by simpa using stops) isControl
      | true =>
          apply control _ stop later before isControl
          intro shorter length
          exact program_induction straight brace control shorter
termination_by tokens.length
decreasing_by exact Nat.lt_trans length (length_lt_of_dropWhile_eq_cons found)

section

variable {before : List Token} {stop : Token}

theorem dropWhile_straight (straight : Straight before) (stops : stop.isStraight = false)
    (later : List Token) :
    (before ++ stop :: later).dropWhile Token.isStraight = stop :: later := by
  rw [List.dropWhile_append_of_pos straight, List.dropWhile_cons_of_neg (by simp [stops])]

theorem takeWhile_straight (straight : Straight before) (stops : stop.isStraight = false)
    (later : List Token) :
    (before ++ stop :: later).takeWhile Token.isStraight = before := by
  rw [List.takeWhile_append_of_pos straight, List.takeWhile_cons_of_neg (by simp [stops]),
    List.append_nil]

theorem not_isStraight_of_isControl (isControl : stop.kind.isControl) :
    stop.isStraight = false := by
  simp [Token.isStraight, isControl]

/-! ## Runs -/

theorem statementsOf_straight (limit depth : Nat) (straight : Straight before) :
    statementsOf limit depth before = straightStatements limit before := by
  have nothing : before.dropWhile Token.isStraight = [] := by
    rw [List.dropWhile_eq_nil_iff]
    exact straight
  rw [statementsOf]
  split
  · rfl
  · rename_i found
    rw [nothing] at found
    cases found

/-- A brace that no keyword governs is a fault, whatever stands in front of it. -/
theorem statementsOf_brace (limit depth : Nat) (straight : Straight before)
    (stops : stop.isStraight = false) (notControl : stop.kind.isControl = false)
    (later : List Token) :
    statementsOf limit depth (before ++ stop :: later) =
      .fail (.unexpectedToken stop.text) stop.position := by
  have here := dropWhile_straight straight stops later
  rw [statementsOf]
  split
  · rename_i found
    rw [here] at found
    cases found
  · rename_i found
    rw [here] at found
    cases found
    rw [if_neg (by simp [notControl])]

/-! ## Blocks -/

/-- The statement of a keyword, and the tokens after its block. -/
def governed (limit depth : Nat) (keyword : Token) (after : List Token) :
    Parse (Tree × List Token) :=
  governedStatement limit depth keyword after >>= fun found => return (found.1, found.2.val)

theorem statementsOf_control (limit depth : Nat) (straight : Straight before)
    (isControl : stop.kind.isControl) (later : List Token) :
    statementsOf limit depth (before ++ stop :: later) =
      straightStatements limit before >>= fun earlier =>
        governed limit depth stop later >>= fun found =>
          statementsOf limit depth found.2 >>= fun following =>
            return earlier ++ found.1 :: following := by
  have stops := not_isStraight_of_isControl isControl
  have here := dropWhile_straight straight stops later
  rw [statementsOf]
  split
  · rename_i found
    rw [here] at found
    cases found
  · rename_i found
    rw [here] at found
    cases found
    rw [if_pos isControl, takeWhile_straight straight stops later]
    simp only [governed, bind_assoc, pure_bind]

end

theorem governed_eq (limit depth : Nat) (keyword : Token) (after : List Token) :
    governed limit depth keyword after =
      if limit ≤ depth then .fail (.nestingTooDeep limit) keyword.position
      else
        match splitAtOpen after with
        | none => .fail (.missingBlock keyword.text) keyword.position
        | some (tokens, brace, inside) =>
            soleCondition limit keyword tokens >>= fun condition =>
              match splitAtClose 1 inside with
              | none => .fail .unclosedBlock brace.position
              | some (block, rest) =>
                  statementsOf limit (depth + 1) block >>= fun body =>
                    return (.control keyword.controlOf condition body keyword.position, rest) := by
  rw [governed, governedStatement]
  split
  · rfl
  · split
    · rename_i opened
      rw [opened]
      rfl
    · rename_i opened
      simp only [opened, bind_assoc]
      congr
      funext condition
      split
      · rename_i closed
        simp only [closed]
        rfl
      · rename_i closed
        simp only [closed, bind_assoc, pure_bind]

/-- What a governed statement that comes through consists of. -/
theorem governed_eq_ok {limit depth : Nat} {keyword : Token} {after rest : List Token}
    {symbols final : Symbols} {tree : Tree} :
    (governed limit depth keyword after).outcome symbols = .ok ((tree, rest), final) ↔
      depth < limit ∧ ∃ tokens brace inside block condition middle body,
        splitAtOpen after = some (tokens, brace, inside) ∧
        splitAtClose 1 inside = some (block, rest) ∧
        (soleCondition limit keyword tokens).outcome symbols = .ok (condition, middle) ∧
        (statementsOf limit (depth + 1) block).outcome middle = .ok (body, final) ∧
        tree = .control keyword.controlOf condition body keyword.position := by
  rw [governed_eq]
  constructor
  · intro parsed
    split at parsed
    · cases parsed
    · rename_i shallow
      split at parsed
      · cases parsed
      · rename_i tokens brace inside opened
        rw [Parse.outcome_bind_eq_ok] at parsed
        rcases parsed with ⟨condition, middle, conditionParsed, parsed⟩
        split at parsed
        · cases parsed
        · rename_i block remaining closed
          rw [Parse.outcome_bind_eq_ok] at parsed
          rcases parsed with ⟨body, _, bodyParsed, same⟩
          cases same
          exact ⟨Nat.lt_of_not_le shallow, tokens, brace, inside, block, condition, middle, body,
            opened, closed, conditionParsed, bodyParsed, rfl⟩
  · rintro ⟨shallow, tokens, brace, inside, block, condition, middle, body, opened, closed,
      conditionParsed, bodyParsed, rfl⟩
    rw [if_neg (Nat.not_le_of_lt shallow), opened]
    simp only [Parse.outcome_bind_of_ok conditionParsed, closed,
      Parse.outcome_bind_of_ok bodyParsed, Parse.outcome_pure]

/-- What a governed statement leaves is shorter. -/
theorem length_governed {limit depth : Nat} {keyword : Token} {after rest : List Token}
    {symbols final : Symbols} {tree : Tree}
    (parsed : (governed limit depth keyword after).outcome symbols = .ok ((tree, rest), final)) :
    rest.length < after.length := by
  rw [governed, Parse.outcome_bind_eq_ok] at parsed
  rcases parsed with ⟨⟨_, shorter, property⟩, _, _, same⟩
  cases same
  exact property

/-! ## Cuts at braces -/

section

variable {tokens before after : List Token} {brace : Token} {openBlocks : Nat}

theorem splitAtOpen_eq_some (found : splitAtOpen tokens = some (before, brace, after)) :
    tokens = before ++ brace :: after ∧ brace.kind = .openBlock ∧
      ∀ token ∈ before, token.kind ≠ .openBlock ∧ token.kind ≠ .closeBlock ∧
        token.kind ≠ .endOfInput := by
  induction tokens generalizing before with
  | nil => cases found
  | cons token later induction =>
      unfold splitAtOpen at found
      split at found
      · rename_i opens
        cases found
        exact ⟨rfl, opens, fun _ none => nomatch none⟩
      · cases found
      · cases found
      · rename_i notOpen notClose notEnd
        rcases Option.map_eq_some_iff.mp found with ⟨⟨earlier, _, _⟩, split, same⟩
        cases same
        rcases induction split with ⟨rfl, opens, plain⟩
        refine ⟨rfl, opens, ?_⟩
        intro selected member
        rcases List.mem_cons.mp member with rfl | member
        · exact ⟨notOpen, notClose, notEnd⟩
        · exact plain selected member

theorem splitAtOpen_append (found : splitAtOpen tokens = some (before, brace, after))
    (later : List Token) :
    splitAtOpen (tokens ++ later) = some (before, brace, after ++ later) := by
  induction tokens generalizing before with
  | nil => cases found
  | cons token rest induction =>
      unfold splitAtOpen at found
      rw [List.cons_append, splitAtOpen]
      split at found
      · cases found
        rfl
      · cases found
      · cases found
      · rename_i notOpen notClose notEnd
        rcases Option.map_eq_some_iff.mp found with ⟨⟨earlier, _, _⟩, split, same⟩
        cases same
        rw [induction split]
        rfl

theorem splitAtOpen_append_end (missing : splitAtOpen tokens = none) {mark : Token}
    (marks : mark.kind = .endOfInput) : splitAtOpen (tokens ++ [mark]) = none := by
  induction tokens with
  | nil => rw [List.nil_append, splitAtOpen, marks]
  | cons token rest induction =>
      unfold splitAtOpen at missing
      rw [List.cons_append, splitAtOpen]
      split at missing
      · cases missing
      · rfl
      · rfl
      · rw [induction (Option.map_eq_none_iff.mp missing)]
        rfl

theorem splitAtClose_eq_some (found : splitAtClose openBlocks tokens = some (before, after)) :
    ∃ closing, closing.kind = .closeBlock ∧ tokens = before ++ closing :: after := by
  induction tokens generalizing openBlocks before with
  | nil => cases found
  | cons token later induction =>
      have grow {count : Nat}
          (inner : (splitAtClose count later).map
            (fun found => (token :: found.1, found.2)) = some (before, after)) :
          ∃ closing, closing.kind = .closeBlock ∧ token :: later = before ++ closing :: after := by
        rcases Option.map_eq_some_iff.mp inner with ⟨⟨earlier, _⟩, split, same⟩
        cases same
        rcases induction split with ⟨closing, closes, rfl⟩
        exact ⟨closing, closes, rfl⟩
      unfold splitAtClose at found
      split at found
      · exact grow found
      · rename_i closes
        split at found
        · cases found
          exact ⟨token, closes, rfl⟩
        · exact grow found
      · exact grow found

theorem splitAtClose_append (found : splitAtClose openBlocks tokens = some (before, after))
    (later : List Token) :
    splitAtClose openBlocks (tokens ++ later) = some (before, after ++ later) := by
  induction tokens generalizing openBlocks before with
  | nil => cases found
  | cons token rest induction =>
      have grow {count : Nat}
          (inner : (splitAtClose count rest).map
            (fun found => (token :: found.1, found.2)) = some (before, after)) :
          (splitAtClose count (rest ++ later)).map
            (fun found => (token :: found.1, found.2)) = some (before, after ++ later) := by
        rcases Option.map_eq_some_iff.mp inner with ⟨⟨earlier, _⟩, split, same⟩
        cases same
        rw [induction split]
        rfl
      unfold splitAtClose at found
      rw [List.cons_append, splitAtClose]
      split at found
      · exact grow found
      · split at found
        · rename_i few
          cases found
          exact if_pos few
        · rename_i many
          exact (if_neg many).trans (grow found)
      · exact grow found

theorem splitAtClose_append_end (missing : splitAtClose openBlocks tokens = none) {mark : Token}
    (marks : mark.kind = .endOfInput) : splitAtClose openBlocks (tokens ++ [mark]) = none := by
  induction tokens generalizing openBlocks with
  | nil => rw [List.nil_append, splitAtClose, marks]; rfl
  | cons token rest induction =>
      have grow {count : Nat}
          (inner : (splitAtClose count rest).map
            (fun found => (token :: found.1, found.2)) = none) :
          (splitAtClose count (rest ++ [mark])).map
            (fun found => (token :: found.1, found.2)) = none := by
        rw [induction (Option.map_eq_none_iff.mp inner)]
        rfl
      unfold splitAtClose at missing
      rw [List.cons_append, splitAtClose]
      split at missing
      · exact grow missing
      · split at missing
        · cases missing
        · rename_i many
          exact (if_neg many).trans (grow missing)
      · exact grow missing

end

/-! ## Blocks inside of blocks -/

/-- Tokens in which every block that is opened is closed. -/
def Balanced (tokens : List Token) : Prop :=
  ∀ count rest, splitAtClose (count + 1) (tokens ++ rest) =
    (splitAtClose (count + 1) rest).map fun found => (tokens ++ found.1, found.2)

theorem balanced_nil : Balanced [] := by
  intro count rest
  cases found : splitAtClose (count + 1) rest <;> simp [found]

theorem Balanced.append {first second : List Token} (one : Balanced first)
    (other : Balanced second) : Balanced (first ++ second) := by
  intro count rest
  rw [List.append_assoc, one, other, Option.map_map]
  congr
  funext ⟨before, after⟩
  simp

theorem balanced_token {token : Token} (notOpen : token.kind ≠ .openBlock)
    (notClose : token.kind ≠ .closeBlock) : Balanced [token] := by
  intro count rest
  rw [List.singleton_append, splitAtClose]
  split
  · contradiction
  · contradiction
  · rfl

theorem balanced_of_forall {tokens : List Token}
    (plain : ∀ token ∈ tokens, token.kind ≠ .openBlock ∧ token.kind ≠ .closeBlock) :
    Balanced tokens := by
  induction tokens with
  | nil => exact balanced_nil
  | cons token later induction =>
      rcases List.forall_mem_cons.mp plain with ⟨here, others⟩
      exact (balanced_token here.1 here.2).append (induction others)

theorem Balanced.block {brace closing : Token} {inside : List Token}
    (opens : brace.kind = .openBlock) (balanced : Balanced inside)
    (closes : closing.kind = .closeBlock) : Balanced (brace :: (inside ++ [closing])) := by
  intro count rest
  have further : ¬count + 1 + 1 ≤ 1 := by omega
  have opened : splitAtClose (count + 1) (brace :: (inside ++ closing :: rest)) =
      (splitAtClose (count + 1 + 1) (inside ++ closing :: rest)).map
        fun found => (brace :: found.1, found.2) := by
    rw [splitAtClose, opens]
  have closed : splitAtClose (count + 1 + 1) (closing :: rest) =
      (splitAtClose (count + 1) rest).map fun found => (closing :: found.1, found.2) := by
    rw [splitAtClose, closes]
    exact if_neg further
  rw [List.cons_append, List.append_assoc, List.singleton_append, opened, balanced, closed,
    Option.map_map, Option.map_map]
  congr
  funext ⟨before, after⟩
  simp

theorem Balanced.splitAtClose {tokens : List Token} (balanced : Balanced tokens) {closing : Token}
    (closes : closing.kind = .closeBlock) (rest : List Token) :
    splitAtClose 1 (tokens ++ closing :: rest) = some (tokens, rest) := by
  have here : Scriptlet.splitAtClose 1 (closing :: rest) = some ([], rest) := by
    rw [Scriptlet.splitAtClose, closes]
    rfl
  rw [balanced 0, here]
  simp

theorem splitAtOpen_of_forall {before : List Token} {brace : Token} {after : List Token}
    (plain : ∀ token ∈ before, token.bounds = false) (opens : brace.kind = .openBlock) :
    splitAtOpen (before ++ brace :: after) = some (before, brace, after) := by
  induction before with
  | nil => rw [List.nil_append, splitAtOpen, opens]
  | cons token later induction =>
      rcases List.forall_mem_cons.mp plain with ⟨here, others⟩
      rw [List.cons_append, splitAtOpen, induction others]
      split
      · rename_i found
        simp [Token.bounds, Token.isStraight, found] at here
      · rename_i found
        simp [Token.bounds, Token.isStraight, found] at here
      · rename_i found
        simp [Token.bounds, Kind.endsStatement, found] at here
      · rfl

end Scriptlet
