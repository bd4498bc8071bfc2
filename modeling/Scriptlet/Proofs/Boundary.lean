import Scriptlet.Token.Boundary
import Scriptlet.Proofs.Concatenation
import Scriptlet.Proofs.Relocation

/-! What separating statements keeps of a token sequence. -/

namespace Scriptlet

/-! ## Sequences that are closed -/

/-- Behind a terminator statements are separated as at the start. -/
theorem separateAfter_of_terminator {previous : Option Token}
    (terminated : previous.all (·.kind == .terminator)) (tokens : List Token) :
    separateAfter previous tokens = separateAfter none tokens := by
  have noBoundary (token : Token) : previous.any (·.endsStatementBefore token) = false := by
    cases previous with
    | none => rfl
    | some last =>
        have terminator : last.kind = .terminator := by simpa using terminated
        simp [Token.endsStatementBefore, Token.isNumber, Kind.closesOperand, Kind.isOperand,
          terminator]
  induction tokens with
  | nil => rfl
  | cons token later induction =>
      rw [separateAfter, separateAfter, terminated, noBoundary]
      split
      · exact induction
      · rfl

/-- What separating does with one token: it drops a terminator that ends no statement; anything else
it keeps, behind a terminator of its own if a statement ends there. -/
theorem separateAfter_cons (previous : Option Token) (token : Token) :
    (token.kind = .terminator ∧ previous.all (·.kind == .terminator) ∧
      ∀ later, separateAfter previous (token :: later) = separateAfter previous later) ∨
    ((token.kind = .terminator ∨ previous.any (·.endsStatementBefore token) = false) ∧
      ∀ later, separateAfter previous (token :: later) =
        token :: separateAfter (some token) later) ∨
    (∀ later, separateAfter previous (token :: later) =
      .terminator token.position :: token :: separateAfter (some token) later) := by
  by_cases terminator : token.kind = .terminator
  · by_cases terminated : previous.all (·.kind == .terminator)
    · refine .inl ⟨terminator, terminated, fun later => ?_⟩
      rw [separateAfter, if_pos terminator, if_pos terminated]
    · refine .inr (.inl ⟨.inl terminator, fun later => ?_⟩)
      rw [separateAfter, if_pos terminator, if_neg terminated]
  · by_cases ends : previous.any (·.endsStatementBefore token)
    · refine .inr (.inr fun later => ?_)
      rw [separateAfter, if_neg terminator, if_pos ends]
    · refine .inr (.inl ⟨.inr (by simpa using ends), fun later => ?_⟩)
      rw [separateAfter, if_neg terminator, if_neg ends]

theorem Closed.tail {token : Token} {later : List Token} (closed : Closed (token :: later)) :
    Closed later := by
  rw [← List.singleton_append] at closed
  exact closed.of_append

theorem Closed.terminated {token : Token} {later : List Token} (closed : Closed (token :: later)) :
    later = [] → (some token).all (·.kind == .terminator) := by
  rintro rfl
  simpa using closed token rfl

/-- Closed sequences are separated on their own. -/
theorem separateAfter_append {first : List Token} (closed : Closed first) {previous : Option Token}
    (terminated : first = [] → previous.all (·.kind == .terminator)) (second : List Token) :
    separateAfter previous (first ++ second) =
      separateAfter previous first ++ separate second := by
  induction first generalizing previous with
  | nil => exact separateAfter_of_terminator (terminated rfl) second
  | cons token later induction =>
      rw [List.cons_append]
      rcases separateAfter_cons previous token with ⟨_, terminated, dropped⟩ | ⟨_, kept⟩ | kept
      · rw [dropped, dropped]
        exact induction closed.tail fun _ => terminated
      · rw [kept, kept, induction closed.tail closed.terminated]
        rfl
      · rw [kept, kept, induction closed.tail closed.terminated]
        rfl

theorem separate_append {first : List Token} (closed : Closed first) (second : List Token) :
    separate (first ++ second) = separate first ++ separate second :=
  separateAfter_append closed (fun _ => rfl) second

theorem Closed.cons {first last : Token} {later : List Token} (closed : Closed (last :: later)) :
    Closed (first :: last :: later) := by
  intro final member
  apply closed
  rwa [List.getLast?_cons_cons] at member

theorem closed_separateAfter {tokens : List Token} (closed : Closed tokens)
    {previous : Option Token} (terminated : tokens = [] → previous.all (·.kind == .terminator)) :
    Closed (previous.toList ++ separateAfter previous tokens) := by
  induction tokens generalizing previous with
  | nil =>
      have last := terminated rfl
      cases previous with
      | none => exact fun _ none => nomatch none
      | some token =>
          intro ending member
          rw [separateAfter, List.append_nil] at member
          cases member
          simpa using last
  | cons token later induction =>
      have rest : Closed (token :: separateAfter (some token) later) :=
        @induction closed.tail (some token) closed.terminated
      rcases separateAfter_cons previous token with ⟨_, terminated, dropped⟩ | ⟨_, kept⟩ | kept
      · rw [dropped]
        exact induction closed.tail fun _ => terminated
      · rw [kept]
        cases previous with
        | none => exact rest
        | some last => exact rest.cons
      · rw [kept]
        cases previous with
        | none => exact rest.cons
        | some last => exact rest.cons.cons

/-- Separating a closed sequence leaves it closed. -/
theorem closed_separate {tokens : List Token} (closed : Closed tokens) :
    Closed (separate tokens) :=
  @closed_separateAfter tokens closed none fun _ => rfl

theorem mem_separateAfter {previous : Option Token} {tokens : List Token} {token : Token}
    (member : token ∈ separateAfter previous tokens) :
    token ∈ tokens ∨ token.kind = .terminator := by
  induction tokens generalizing previous with
  | nil => cases member
  | cons next later induction =>
      have kept (inside : token ∈ next :: separateAfter (some next) later) :
          token ∈ next :: later ∨ token.kind = .terminator := by
        rcases List.mem_cons.mp inside with rfl | inside
        · exact .inl List.mem_cons_self
        · exact (induction inside).imp_left (List.mem_cons_of_mem _)
      rcases separateAfter_cons previous next with ⟨_, _, dropped⟩ | ⟨_, same⟩ | same
      · rw [dropped] at member
        exact (induction member).imp_left (List.mem_cons_of_mem _)
      · rw [same] at member
        exact kept member
      · rw [same] at member
        rcases List.mem_cons.mp member with rfl | member
        · exact .inr rfl
        · exact kept member

theorem unended_separate {tokens : List Token} (unended : Unended tokens) :
    Unended (separate tokens) := by
  intro token member
  rcases mem_separateAfter member with member | terminator
  · exact unended token member
  · rw [terminator]
    exact Kind.noConfusion

/-! ## What stays

Separating only adds and drops terminators. -/

theorem separateAfter_filter {keep : Token → Bool}
    (drops : ∀ token : Token, token.kind = .terminator → keep token = false)
    (previous : Option Token) (tokens : List Token) :
    (separateAfter previous tokens).filter keep = tokens.filter keep := by
  induction tokens generalizing previous with
  | nil => rfl
  | cons token later induction =>
      rcases separateAfter_cons previous token with ⟨terminator, _, dropped⟩ | ⟨_, kept⟩ | kept
      · rw [dropped, induction, List.filter_cons_of_neg (by simp [drops token terminator])]
      · rw [kept, List.filter_cons, List.filter_cons, induction]
      · rw [kept, List.filter_cons_of_neg (by simp [drops (.terminator token.position) rfl]),
          List.filter_cons, List.filter_cons, induction]

theorem Token.not_endsStatementBefore {previous next : Token}
    (notBlock : previous.kind ≠ .closeBlock)
    (inside : ¬(previous.kind.closesOperand ∧ next.kind.opensStatement)) :
    previous.endsStatementBefore next = false := by
  rw [endsStatementBefore, if_neg notBlock]
  split
  · rfl
  · simpa using inside

theorem separateAfter_keep {previous : Option Token} {token : Token}
    (notTerminator : token.kind ≠ .terminator)
    (joins : ∀ last ∈ previous, last.endsStatementBefore token = false) (later : List Token) :
    separateAfter previous (token :: later) = token :: separateAfter (some token) later := by
  have none : previous.any (·.endsStatementBefore token) = false := by
    cases previous with
    | none => rfl
    | some last => exact joins last rfl
  rw [separateAfter, if_neg notTerminator, if_neg (by simp [none])]

theorem separateAfter_terminator {last : Token} (notTerminator : last.kind ≠ .terminator)
    (position : Position) :
    separateAfter (some last) [.terminator position] = [.terminator position] := by
  have terminates : (Token.terminator position).kind = .terminator := rfl
  rw [separateAfter, if_pos terminates, if_neg (by simpa using notTerminator)]
  rfl

/-- A number right in front of a name, with nothing between them. -/
def Token.isFlush (previous next : Token) : Bool :=
  previous.isNumber && next.kind == .identifier && previous.touches next

/-- A statement ends wherever a complete operand is followed by the start of another, unless a
number is flush against a name. -/
theorem Token.unbroken_of_not_ends {previous next : Token}
    (notFlush : previous.isFlush next = false)
    (continues : previous.endsStatementBefore next = false) :
    ¬(previous.kind.closesOperand ∧ next.kind.opensStatement) := by
  rintro ⟨closes, starts⟩
  rw [endsStatementBefore] at continues
  split at continues
  · rename_i block
    rw [block] at closes
    cases closes
  · rw [isFlush] at notFlush
    rw [notFlush, if_neg Bool.false_ne_true, closes, starts] at continues
    cases continues

/-- What holds of neighbours between which no statement ends holds of all neighbours after
separating, if it holds of any token beside a terminator. -/
theorem separateAfter_isChain {holds : Token → Token → Prop}
    (apart : ∀ earlier later : Token, earlier.kind = .terminator ∨ later.kind = .terminator →
      holds earlier later)
    {previous : Option Token} {tokens : List Token}
    (joins : (previous.toList ++ tokens).IsChain fun earlier later =>
      earlier.endsStatementBefore later = false → holds earlier later) :
    (previous.toList ++ separateAfter previous tokens).IsChain holds := by
  induction tokens generalizing previous with
  | nil =>
      cases previous with
      | none => exact .nil
      | some last => exact .singleton _
  | cons token later induction =>
      have rest := @induction (some token) (List.IsChain.right_of_append joins)
      rcases separateAfter_cons previous token with ⟨_, terminated, dropped⟩ | ⟨few, kept⟩ | kept
      · rw [dropped]
        apply induction
        have behind := (List.IsChain.right_of_append joins).tail
        cases previous with
        | none => exact behind
        | some last =>
            have terminator : last.kind = .terminator := by simpa using terminated
            exact behind.cons fun next _ _ => apart last next (.inl terminator)
      · rw [kept]
        cases previous with
        | none => exact rest
        | some last =>
            refine List.IsChain.cons rest ?_
            rintro _ ⟨⟩
            rcases few with terminator | continues
            · exact apart last token (.inr terminator)
            · exact (List.isChain_cons_cons.mp joins).1 continues
      · rw [kept]
        have supplied : (Token.terminator token.position :: token ::
            separateAfter (some token) later).IsChain holds :=
          List.IsChain.cons rest fun next _ => apart _ next (.inl rfl)
        cases previous with
        | none => exact supplied
        | some last =>
            refine supplied.cons ?_
            rintro _ ⟨⟩
            exact apart last _ (.inr rfl)

theorem Token.unbroken_of_terminator {earlier later : Token}
    (terminates : earlier.kind = .terminator ∨ later.kind = .terminator) :
    ¬(earlier.kind.closesOperand ∧ later.kind.opensStatement) := by
  rintro ⟨closes, starts⟩
  rcases terminates with terminator | terminator
  · rw [terminator] at closes
    cases closes
  · rw [terminator] at starts
    cases starts

/-- After separating, nothing that may begin a statement follows a complete operand. -/
theorem separateAfter_unbroken {previous : Option Token} {tokens : List Token}
    (apart : (previous.toList ++ tokens).IsChain fun earlier later =>
      earlier.isFlush later = false) :
    (previous.toList ++ separateAfter previous tokens).IsChain fun earlier later =>
      ¬(earlier.kind.closesOperand ∧ later.kind.opensStatement) :=
  separateAfter_isChain (fun _ _ terminates => Token.unbroken_of_terminator terminates)
    (apart.imp fun _ _ notFlush continues => Token.unbroken_of_not_ends notFlush continues)

/-- After separating, what may begin a statement follows a complete operand only if that is a number
flush against a name. -/
theorem separate_unbroken (tokens : List Token) :
    (separate tokens).IsChain fun earlier later =>
      earlier.isFlush later ∨ ¬(earlier.kind.closesOperand ∧ later.kind.opensStatement) := by
  apply @separateAfter_isChain _
    (fun _ _ terminates => .inr (Token.unbroken_of_terminator terminates)) none
  apply List.Pairwise.isChain
  apply List.pairwise_of_forall
  intro earlier later continues
  cases flush : earlier.isFlush later with
  | true => exact .inl rfl
  | false => exact .inr (Token.unbroken_of_not_ends flush continues)

/-! ## Other places -/

section

variable {place : Position → Position}

theorem Token.endsStatementBefore_move {previous next : Token}
    (same : (previous.move place).touches (next.move place) = previous.touches next) :
    (previous.move place).endsStatementBefore (next.move place) =
      previous.endsStatementBefore next := by
  rw [endsStatementBefore, endsStatementBefore, same]
  rfl

theorem separateAfter_move {previous : Option Token} {tokens : List Token}
    (same : ∀ earlier ∈ previous.toList ++ tokens, ∀ later ∈ tokens,
      (earlier.move place).touches (later.move place) = earlier.touches later) :
    separateAfter (previous.map (Token.move place)) (tokens.map (Token.move place)) =
      (separateAfter previous tokens).map (Token.move place) := by
  induction tokens generalizing previous with
  | nil => rfl
  | cons token later induction =>
      have terminated : (previous.map (Token.move place)).all (·.kind == .terminator) =
          previous.all (·.kind == .terminator) := by
        cases previous <;> rfl
      have ends : (previous.map (Token.move place)).any (·.endsStatementBefore (token.move place)) =
          previous.any (·.endsStatementBefore token) := by
        cases previous with
        | none => rfl
        | some last =>
            exact Token.endsStatementBefore_move
              (same last List.mem_cons_self token List.mem_cons_self)
      have dropped := @induction previous fun earlier member next inside =>
        same earlier (by grind) next (List.mem_cons_of_mem _ inside)
      have kept := @induction (some token) fun earlier member next inside =>
        same earlier (List.mem_append_right _ member) next (List.mem_cons_of_mem _ inside)
      rw [Option.map_some] at kept
      rw [List.map_cons, separateAfter, separateAfter, terminated, ends, Token.move_kind]
      split
      · split
        · exact dropped
        · rw [kept]
          rfl
      · split
        · rw [kept]
          rfl
        · rw [kept]
          rfl

/-- Separating commutes with moving tokens, if the same tokens touch. -/
theorem separate_move {tokens : List Token}
    (same : ∀ earlier ∈ tokens, ∀ later ∈ tokens,
      (earlier.move place).touches (later.move place) = earlier.touches later) :
    separate (tokens.map (Token.move place)) = (separate tokens).map (Token.move place) :=
  @separateAfter_move place none tokens same

end

/-- A place that many lines further down. -/
def Position.below (lines : Nat) (position : Position) : Position :=
  ⟨position.line + lines, position.cursor⟩

theorem Token.touches_below (lines : Nat) (previous next : Token) :
    (previous.move (Position.below lines)).touches (next.move (Position.below lines)) =
      previous.touches next := by
  have line : (previous.position.line + lines == next.position.line + lines) =
      (previous.position.line == next.position.line) := by
    rw [Bool.eq_iff_iff]
    simp
  simp [touches, Position.below, line]

/-- Separating commutes with moving every line down. -/
theorem separate_below (lines : Nat) (tokens : List Token) :
    separate (tokens.map (Token.move (Position.below lines))) =
      (separate tokens).map (Token.move (Position.below lines)) :=
  separate_move fun earlier _ later _ => Token.touches_below lines earlier later

end Scriptlet
