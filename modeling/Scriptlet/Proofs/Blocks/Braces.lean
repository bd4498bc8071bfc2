import Scriptlet.Proofs.Contract
import Scriptlet.Proofs.Parentheses
import Scriptlet.Proofs.Program

/-! Which braces have a partner, and which one is reported if its block is not closed.

A block ends where the braces from its opening one on first come out even. What lies between has its
own braces in pairs, so nothing in it can be left open: only a block that stands in no other can. -/

namespace Scriptlet

/-! ## Counting -/

/-- What a token adds to the number of open blocks. -/
def Token.rise (token : Token) : Int :=
  match token.kind with
  | .openBlock => 1
  | .closeBlock => -1
  | _ => 0

/-- The blocks that tokens open, less those that they close. -/
def surplus (tokens : List Token) : Int :=
  (tokens.map Token.rise).sum

@[simp] theorem surplus_nil : surplus [] = 0 := rfl

@[simp] theorem surplus_cons (token : Token) (later : List Token) :
    surplus (token :: later) = token.rise + surplus later := by
  simp [surplus]

@[simp] theorem surplus_append (first second : List Token) :
    surplus (first ++ second) = surplus first + surplus second := by
  simp [surplus]

theorem Token.rise_of_opens {token : Token} (opens : token.kind = .openBlock) :
    token.rise = 1 := by
  rw [rise, opens]

theorem Token.rise_of_closes {token : Token} (closes : token.kind = .closeBlock) :
    token.rise = -1 := by
  rw [rise, closes]

theorem Token.rise_of_other {token : Token} (notOpen : token.kind ≠ .openBlock)
    (notClose : token.kind ≠ .closeBlock) : token.rise = 0 := by
  unfold rise
  split
  · contradiction
  · contradiction
  · rfl

theorem Token.neg_one_le_rise (token : Token) : -1 ≤ token.rise := by
  unfold rise
  split <;> decide

theorem Token.closes_of_rise_neg {token : Token} (falls : token.rise < 0) :
    token.kind = .closeBlock := by
  unfold rise at falls
  split at falls
  · cases falls
  · assumption
  · cases falls

/-- No block is closed that is not open, with `openBlocks` of them open in front. -/
def Covered (openBlocks : Int) (tokens : List Token) : Prop :=
  ∀ front, front <+: tokens → 0 ≤ openBlocks + surplus front

/-- Every brace has its partner. -/
structure Braced (tokens : List Token) : Prop where
  covered : Covered 0 tokens
  settled : surplus tokens = 0

theorem covered_nil {openBlocks : Int} : Covered openBlocks [] ↔ 0 ≤ openBlocks := by
  simp [Covered]

theorem covered_cons {openBlocks : Int} {token : Token} {later : List Token} :
    Covered openBlocks (token :: later) ↔
      0 ≤ openBlocks ∧ Covered (openBlocks + token.rise) later := by
  constructor
  · intro covered
    refine ⟨by simpa using covered [] List.nil_prefix, ?_⟩
    intro front isFront
    have whole := covered (token :: front) (by simpa using isFront)
    rwa [surplus_cons, ← add_assoc] at whole
  · rintro ⟨enough, rest⟩ front isFront
    rcases List.prefix_cons_iff.mp isFront with rfl | ⟨others, rfl, within⟩
    · simpa using enough
    · rw [surplus_cons, ← add_assoc]
      exact rest others within

theorem covered_append {openBlocks : Int} {first second : List Token} :
    Covered openBlocks (first ++ second) ↔
      Covered openBlocks first ∧ Covered (openBlocks + surplus first) second := by
  induction first generalizing openBlocks with
  | nil =>
      rw [List.nil_append, covered_nil, surplus_nil, add_zero]
      refine ⟨fun covered => ⟨by simpa using covered [] List.nil_prefix, covered⟩, And.right⟩
  | cons token later induction =>
      rw [List.cons_append, covered_cons, covered_cons, induction, surplus_cons, and_assoc,
        add_assoc]

/-- What is left of balanced braces closes at least as much as it opens. -/
theorem Braced.surplus_suffix {tokens back : List Token} (braced : Braced tokens)
    (isBack : back <:+ tokens) : surplus back ≤ 0 := by
  rcases isBack with ⟨front, rfl⟩
  have ahead := braced.covered front (List.prefix_append front back)
  have total := braced.settled
  rw [surplus_append] at total
  omega

/-! ## Where a block is closed -/

/-- The scan for a closing brace goes on as long as a block is open. -/
theorem splitAtClose_cons (count : Nat) (token : Token) (later : List Token) :
    splitAtClose (count + 1) (token :: later) =
      if count + token.rise < 0 then some ([], later)
      else (splitAtClose ((count + token.rise).toNat + 1) later).map
        fun found => (token :: found.1, found.2) := by
  rw [splitAtClose]
  split
  · rename_i opens
    rw [token.rise_of_opens opens, if_neg (by omega)]
    rfl
  · rename_i closes
    rw [token.rise_of_closes closes]
    by_cases last : count = 0
    · subst last
      rfl
    · have fewer : (count + -1 : Int).toNat + 1 = count + 1 - 1 := by omega
      rw [if_neg (by omega), if_neg (by omega), fewer]
  · rename_i notOpen notClose
    rw [token.rise_of_other notOpen notClose, if_neg (by omega), add_zero, Int.toNat_natCast]

/-- A block is closed by the first brace that leaves none open. -/
theorem splitAtClose_eq_some_iff {count : Nat} {tokens before after : List Token} :
    splitAtClose (count + 1) tokens = some (before, after) ↔
      (∃ closing, closing.kind = .closeBlock ∧ tokens = before ++ closing :: after) ∧
        Covered count before ∧ count + surplus before = 0 := by
  constructor
  · intro found
    induction tokens generalizing count before with
    | nil => cases found
    | cons token later induction =>
        rw [splitAtClose_cons] at found
        split at found
        · rename_i falls
          cases found
          have least := token.neg_one_le_rise
          have closes : token.kind = .closeBlock := Token.closes_of_rise_neg (by omega)
          exact ⟨⟨token, closes, rfl⟩, covered_nil.mpr (by omega), by simp; omega⟩
        · rename_i stays
          rcases Option.map_eq_some_iff.mp found with ⟨⟨earlier, _⟩, split, same⟩
          cases same
          rcases induction split with ⟨⟨closing, closes, rfl⟩, covered, settled⟩
          rw [Int.toNat_of_nonneg (by omega)] at covered settled
          refine ⟨⟨closing, closes, rfl⟩, covered_cons.mpr ⟨by omega, covered⟩, ?_⟩
          rw [surplus_cons, ← add_assoc]
          exact settled
  · rintro ⟨⟨closing, closes, rfl⟩, covered, settled⟩
    induction before generalizing count with
    | nil =>
        rw [surplus_nil] at settled
        rw [List.nil_append, splitAtClose_cons, closing.rise_of_closes closes, if_pos (by omega)]
    | cons token later induction =>
        rw [covered_cons] at covered
        rw [surplus_cons, ← add_assoc] at settled
        have stays : 0 ≤ count + token.rise := by
          simpa using covered.2 [] List.nil_prefix
        rw [List.cons_append, splitAtClose_cons, if_neg (by omega),
          induction (by rw [Int.toNat_of_nonneg stays]; exact covered.2)
            (by rw [Int.toNat_of_nonneg stays]; exact settled)]
        rfl

/-- A block is not closed exactly if no closing brace is one too many. -/
theorem splitAtClose_eq_none_iff {count : Nat} {tokens : List Token} :
    splitAtClose (count + 1) tokens = none ↔ Covered count tokens := by
  induction tokens generalizing count with
  | nil => simp [splitAtClose, covered_nil]
  | cons token later induction =>
      rw [splitAtClose_cons, covered_cons]
      split
      · rename_i falls
        refine iff_of_false (by simp) fun covered => ?_
        have stays : 0 ≤ count + token.rise := by
          simpa using covered.2 [] List.nil_prefix
        omega
      · rename_i stays
        rw [Option.map_eq_none_iff, induction, Int.toNat_of_nonneg (by omega)]
        simp

/-- The block of an opening brace is what lies between it and its partner. -/
theorem splitAtClose_one_eq_some_iff {inside block rest : List Token} :
    splitAtClose 1 inside = some (block, rest) ↔
      (∃ closing, closing.kind = .closeBlock ∧ inside = block ++ closing :: rest) ∧
        Braced block := by
  have found := @splitAtClose_eq_some_iff 0 inside block rest
  rw [Nat.cast_zero, zero_add] at found
  rw [found]
  exact and_congr_right fun _ => ⟨fun ⟨covered, settled⟩ => ⟨covered, by simpa using settled⟩,
    fun braced => ⟨braced.covered, by simpa using braced.settled⟩⟩

/-- Braces are paired exactly if a scan for a closing brace passes over them. -/
theorem balanced_iff_braced {tokens : List Token} : Balanced tokens ↔ Braced tokens := by
  constructor
  · intro balanced
    have cut := @Balanced.splitAtClose tokens balanced ⟨.closeBlock, "", default⟩ rfl []
    exact (splitAtClose_one_eq_some_iff.mp cut).2
  · intro braced count rest
    have passes : Covered count tokens := by
      intro front isFront
      have ahead := braced.covered front isFront
      omega
    cases found : splitAtClose (count + 1) rest with
    | none =>
        rw [Option.map_none, splitAtClose_eq_none_iff, covered_append, braced.settled, add_zero]
        exact ⟨passes, splitAtClose_eq_none_iff.mp found⟩
    | some parts =>
        rcases parts with ⟨before, after⟩
        rcases splitAtClose_eq_some_iff.mp found with ⟨⟨closing, closes, rfl⟩, covered, settled⟩
        rw [Option.map_some, splitAtClose_eq_some_iff]
        refine ⟨⟨closing, closes, by simp⟩, ?_, ?_⟩
        · rw [covered_append, braced.settled, add_zero]
          exact ⟨passes, covered⟩
        · rw [surplus_append, braced.settled, zero_add]
          exact settled

theorem Braced.append {first second : List Token} (one : Braced first) (other : Braced second) :
    Braced (first ++ second) :=
  balanced_iff_braced.mp ((balanced_iff_braced.mpr one).append (balanced_iff_braced.mpr other))

theorem Braced.block {brace closing : Token} {inside : List Token}
    (opens : brace.kind = .openBlock) (braced : Braced inside)
    (closes : closing.kind = .closeBlock) : Braced (brace :: (inside ++ [closing])) :=
  balanced_iff_braced.mp (.block opens (balanced_iff_braced.mpr braced) closes)

theorem braced_of_forall {tokens : List Token}
    (plain : ∀ token ∈ tokens, token.kind ≠ .openBlock ∧ token.kind ≠ .closeBlock) :
    Braced tokens :=
  balanced_iff_braced.mp (balanced_of_forall plain)

theorem braced_of_straight {tokens : List Token} (straight : Straight tokens) : Braced tokens := by
  apply braced_of_forall
  intro token member
  have here := straight token member
  simp only [Token.isStraight, Bool.not_eq_true', Bool.or_eq_false_iff, beq_eq_false_iff_ne] at here
  exact ⟨here.1.2, here.2⟩

theorem braced_of_isControl {keyword : Token} (isControl : keyword.kind.isControl) :
    Braced [keyword] := by
  apply braced_of_forall
  intro token member
  rw [List.mem_singleton.mp member]
  constructor
  · intro opens
    rw [opens] at isControl
    cases isControl
  · intro closes
    rw [closes] at isControl
    cases isControl

/-! ## Blocks that are not closed -/

/-- The next brace opens a block that is not closed. -/
def Unclosed (tokens : List Token) (brace : Token) : Prop :=
  ∃ condition inside, splitAtOpen tokens = some (condition, brace, inside) ∧
    splitAtClose 1 inside = none

/-- The opening brace of a block that is not closed, and whose keyword stands in no block. -/
inductive LeftOpen : List Token → Token → Prop where
  | intro {before after : List Token} {keyword brace : Token} (outermost : Braced before)
      (isControl : keyword.kind.isControl) (unclosed : Unclosed after brace) :
      LeftOpen (before ++ keyword :: after) brace

theorem LeftOpen.behind {front tokens : List Token} {brace : Token} (braced : Braced front)
    (leftOpen : LeftOpen tokens brace) : LeftOpen (front ++ tokens) brace := by
  rcases leftOpen with ⟨outermost, isControl, unclosed⟩
  rw [← List.append_assoc]
  exact .intro (braced.append outermost) isControl unclosed

/-- Where braces are paired, every opening brace has its closing one. -/
theorem Braced.not_unclosed {tokens back : List Token} {brace : Token} (braced : Braced tokens)
    (isBack : back <:+ tokens) : ¬Unclosed back brace := by
  rintro ⟨condition, inside, opened, unclosed⟩
  rcases splitAtOpen_eq_some opened with ⟨rfl, opens, _⟩
  have behind := braced.surplus_suffix ((List.suffix_append condition _).trans isBack)
  have inner := splitAtClose_eq_none_iff.mp unclosed inside (List.prefix_refl inside)
  rw [surplus_cons, brace.rise_of_opens opens] at behind
  rw [Nat.cast_zero] at inner
  omega

theorem Braced.not_leftOpen {tokens : List Token} {brace : Token} (braced : Braced tokens) :
    ¬LeftOpen tokens brace := by
  intro leftOpen
  rcases leftOpen with ⟨_, _, unclosed⟩
  exact braced.not_unclosed ((List.suffix_cons _ _).trans (List.suffix_append _ _)) unclosed

/-! ## What is reported

Straight statements know of no blocks. An unclosed block is therefore reported for the keyword that
governs it, and the parse of what encloses that keyword only passes the report on. -/

/-- An unclosed block is reported only at a brace of which `named` holds. -/
def SourceError.ReportsOpen (named : Token → Prop) (error : SourceError) : Prop :=
  error.cause = .unclosedBlock → ∃ brace, named brace ∧ brace.position = error.position

/-- A step that reports unclosed blocks only at braces of which `named` holds. -/
abbrev Parse.ReportsOpen (named : Token → Prop) (gives : α → Prop) (step : Parse α) : Prop :=
  Meets (fun _ => True) gives (SourceError.ReportsOpen named) step

theorem Parse.ReportsOpen.rename {named others : Token → Prop} {gives : α → Prop} {step : Parse α}
    (reports : ReportsOpen named gives step) (implies : ∀ brace, named brace → others brace) :
    ReportsOpen others gives step := by
  apply reports.weaken
  intro error names same
  rcases names same with ⟨brace, here, position⟩
  exact ⟨brace, implies brace here, position⟩

theorem Parse.ReportsOpen.exists_brace {named : Token → Prop} {gives : α → Prop} {step : Parse α}
    (reports : ReportsOpen named gives step) {symbols later : Symbols} {position : Position}
    (failed : step.runFrom symbols = (.error ⟨.unclosedBlock, position⟩, later)) :
    ∃ brace, named brace ∧ brace.position = position := by
  have settles := (reports symbols trivial).2
  rw [Parse.runFrom] at failed
  rw [failed] at settles
  exact settles rfl

section

variable {named : Token → Prop}

theorem settles_postOrder_reportsOpen (tokens : List Token) :
    Settles (fun _ => True) (SourceError.ReportsOpen named) (postOrder tokens) := by
  cases ordered : postOrder tokens with
  | ok => trivial
  | error error =>
      rcases postOrder_eq_error_iff.mp ordered with ⟨_, statement, _, whole, _, failed⟩
      have member : statement ∈ statementsIn tokens := by simp [whole]
      rw [statementOrder_eq_error_iff rfl (oneStatement_of_mem_statementsIn member)] at failed
      cases failed <;> exact nofun

theorem reportsOpen_combine (limit below : Nat) (tree : Tree) :
    Parse.ReportsOpen named (fun _ => True) (Operand.combine limit below tree) := by
  unfold Operand.combine
  split
  · exact .throw nofun
  · exact .pure trivial

theorem reportsOpen_absorb (limit : Nat) (operands : List Operand) (token : Token) :
    Parse.ReportsOpen named (fun _ => True) (absorb limit operands token) := by
  by_cases isOperand : token.kind.isOperand
  · intro symbols _
    have run := absorb_operand isOperand limit operands symbols
    rw [Parse.runFrom] at run
    rw [run]
    exact ⟨trivial, trivial⟩
  by_cases isUnary : token.kind.isUnary
  · cases operands with
    | nil =>
        rw [absorb_unary_nil isUnary]
        exact .throw nofun
    | cons operand below =>
        rw [absorb_unary_cons isUnary]
        exact (reportsOpen_combine _ _ _).bind fun _ _ => .pure trivial
  by_cases isBinary : token.kind.isBinary
  · by_cases short : operands.length < 2
    · rw [absorb_binary_short isBinary limit short]
      exact .throw nofun
    · rcases operands with _ | ⟨right, _ | ⟨left, below⟩⟩
      · exact absurd Nat.two_pos short
      · exact absurd Nat.one_lt_two short
      · rw [absorb_binary_cons isBinary]
        exact (reportsOpen_combine _ _ _).bind fun _ _ => .pure trivial
  · rw [absorb_other (by simpa using isOperand) (by simpa using isUnary)
      (by simpa using isBinary)]
    exact .throw nofun

theorem reportsOpen_completeStatement (operands : List Operand) :
    Parse.ReportsOpen named (fun _ => True) (completeStatement operands) := by
  unfold completeStatement
  split
  · exact .pure trivial
  · exact .pure trivial
  · exact .throw nofun

theorem reportsOpen_treesFrom (limit : Nat) (operands : List Operand) (tokens : List Token) :
    Parse.ReportsOpen named (fun _ => True) (treesFrom limit operands tokens) := by
  induction tokens generalizing operands with
  | nil =>
      rw [treesFrom]
      exact (reportsOpen_completeStatement operands).bind fun _ _ => .pure trivial
  | cons token later induction =>
      rw [treesFrom]
      split
      · apply (reportsOpen_completeStatement operands).bind
        intro _ _
        exact (induction []).bind fun _ _ => .pure trivial
      · apply (reportsOpen_absorb limit operands token).bind
        intro after _
        exact induction after

theorem reportsOpen_straightStatements (limit : Nat) (tokens : List Token) :
    Parse.ReportsOpen named (fun _ => True) (straightStatements limit tokens) := by
  rw [straightStatements]
  have ordered : Settles _ (SourceError.ReportsOpen named) (postOrder tokens) :=
    settles_postOrder_reportsOpen tokens
  apply Meets.bind (fun symbols kept => ⟨kept, ordered⟩)
  intro run _
  exact reportsOpen_treesFrom limit [] run

theorem reportsOpen_soleCondition (limit : Nat) (keyword : Token) (tokens : List Token) :
    Parse.ReportsOpen named (fun _ => True) (soleCondition limit keyword tokens) := by
  rw [soleCondition]
  apply (reportsOpen_straightStatements limit tokens).bind
  intro trees _
  split
  · exact .pure trivial
  · exact .throw nofun

end

/-- A governed statement reports its own block. Inside of the block braces are paired, so nothing
in it is reported. -/
theorem reportsOpen_governed {limit depth : Nat} {keyword : Token} {after : List Token}
    (inner : ∀ block : List Token, block.length < after.length →
      Parse.ReportsOpen (LeftOpen block) (fun _ => True) (statementsOf limit (depth + 1) block)) :
    Parse.ReportsOpen (Unclosed after)
      (fun found => found.2.length < after.length ∧
        ∃ front, after = front ++ found.2 ∧ Braced front)
      (governed limit depth keyword after) := by
  rw [governed_eq]
  split
  · exact .throw nofun
  split
  · exact .throw nofun
  rename_i condition brace inside opened
  apply (reportsOpen_soleCondition limit keyword condition).bind
  intro _ _
  split
  · rename_i unclosed
    exact .throw fun _ => ⟨brace, ⟨condition, inside, opened, unclosed⟩, rfl⟩
  rename_i block rest closed
  have shorter := splitAtOpen_length opened
  have shortest := splitAtClose_length closed
  rcases splitAtOpen_eq_some opened with ⟨rfl, opens, plain⟩
  rcases splitAtClose_one_eq_some_iff.mp closed with ⟨⟨closing, closes, rfl⟩, braced⟩
  refine Meets.bind ((inner block (by omega)).rename
    fun _ leftOpen => absurd leftOpen braced.not_leftOpen) fun body _ => ?_
  refine .pure ⟨by dsimp only; omega, condition ++ brace :: (block ++ [closing]), by simp, ?_⟩
  have ahead : Braced condition :=
    braced_of_forall fun token member => ⟨(plain token member).1, (plain token member).2.1⟩
  exact ahead.append (.block opens braced closes)

/-- An unclosed block is reported at its opening brace, and it stands in no other block. -/
theorem reportsOpen_statementsOf {limit depth : Nat} {tokens : List Token} :
    Parse.ReportsOpen (LeftOpen tokens) (fun _ => True) (statementsOf limit depth tokens) := by
  induction tokens using program_induction generalizing depth with
  | straight tokens straight =>
      rw [statementsOf_straight limit depth straight]
      exact reportsOpen_straightStatements limit tokens
  | brace before stop later straight stops notControl =>
      rw [statementsOf_brace limit depth straight stops notControl]
      exact .throw nofun
  | control before keyword later straight isControl induction =>
      have ahead := braced_of_straight straight
      rw [statementsOf_control limit depth straight isControl]
      apply (reportsOpen_straightStatements limit before).bind
      intro _ _
      have governs : Parse.ReportsOpen (Unclosed later) _ (governed limit depth keyword later) :=
        reportsOpen_governed fun block shorter => induction block shorter
      apply (governs.rename fun _ unclosed => .intro ahead isControl unclosed).bind
      rintro ⟨statement, rest⟩ ⟨shorter, front, rfl, braced⟩
      -- The run, the keyword and its block are left behind with their braces paired.
      have passed : Braced (before ++ ([keyword] ++ front)) :=
        ahead.append ((braced_of_isControl isControl).append braced)
      have following : Parse.ReportsOpen _ _ (statementsOf limit depth rest) :=
        (induction rest shorter).rename fun _ leftOpen => leftOpen.behind passed
      rw [List.append_assoc, List.append_assoc, List.singleton_append] at following
      exact following.bind fun _ _ => .pure trivial

end Scriptlet
