import Scriptlet.Proofs.Blocks.Places

/-! Where blocks are, in a buffer of any tokens.

The places of a block come from two scans, and whatever is parsed lies between places that were
found in this way. So no parse in place leaves its stretch, and the block of a keyword holds its
braces in pairs. -/

namespace Scriptlet

variable {tokens : List Token} {limit depth keyword opening closing place stop : Nat}

/-! ## Braces that are found -/

/-- The places at which the braces from an opening one on come out even. -/
def evenPlaces (tokens : List Token) (opening stop : Nat) : Set Nat :=
  { place | opening ≤ place ∧ place < stop ∧ surplus (stretch tokens opening (place + 1)) = 0 }

section

variable {brace : Token} (here : tokens[opening]? = some brace) (opens : brace.kind = .openBlock)

include here opens

theorem surplus_stretch_opening (before : opening < stop) :
    surplus (stretch tokens opening stop) = 1 + surplus (stretch tokens (opening + 1) stop) := by
  rw [stretch_cons here before, surplus_cons, brace.rise_of_opens opens]

/-- The block stays open as long as nothing is closed that was not opened after it. -/
theorem not_mem_evenPlaces (inside : stop ≤ tokens.length)
    (covered : Covered 0 (stretch tokens (opening + 1) stop)) :
    place ∉ evenPlaces tokens opening stop := by
  rintro ⟨behind, before, even⟩
  rw [surplus_stretch_opening here opens (by omega)] at even
  have parts := @stretch_append _ tokens (opening + 1) (place + 1) stop (by omega) (by omega)
    (by omega)
  have least := covered _ ⟨_, parts⟩
  omega

theorem closeAt_eq_none (inside : stop ≤ tokens.length)
    (found : closeAt tokens 0 opening stop = .ok none) :
    evenPlaces tokens opening stop = ∅ := by
  have unclosed := splitAtClose_of_closeAt_none inside here opens found
  rw [Set.eq_empty_iff_forall_notMem]
  exact fun place => not_mem_evenPlaces here opens inside (splitAtClose_eq_none_iff.mp unclosed)

/-- A closing brace that is found, and the block in front of it. -/
theorem closeAt_eq_some (inside : stop ≤ tokens.length)
    (found : closeAt tokens 0 opening stop = .ok (some closing)) :
    opening < closing ∧ closing < stop ∧ Braced (stretch tokens (opening + 1) closing) ∧
      IsLeast (evenPlaces tokens opening stop) closing := by
  rcases splitAtClose_of_closeAt inside here opens found with
    ⟨further, ahead, partner, partnerHere, closes, closed⟩
  have braced := (splitAtClose_one_eq_some_iff.mp closed).2
  refine ⟨further, ahead, braced, ⟨further.le, ahead, ?_⟩, ?_⟩
  · have around := stretch_around (by omega) further partnerHere (Nat.lt_succ_self closing)
    rw [stretch_of_le (Nat.le_refl _)] at around
    rw [surplus_stretch_opening here opens (by omega), around, surplus_append, braced.settled,
      surplus_cons, partner.rise_of_closes closes]
    rfl
  · rintro place ⟨behind, _, even⟩
    by_contra earlier
    exact not_mem_evenPlaces here opens (by omega) braced.covered
      ⟨behind, Nat.lt_of_not_le earlier, even⟩

theorem closeAt_eq_some_iff (inside : stop ≤ tokens.length) :
    closeAt tokens 0 opening stop = .ok (some closing) ↔
      IsLeast (evenPlaces tokens opening stop) closing := by
  refine ⟨fun found => (closeAt_eq_some here opens inside found).2.2.2, fun least => ?_⟩
  rcases closeAt_isOk inside here opens with ⟨_ | other, found⟩
  · have none := closeAt_eq_none here opens inside found
    exact absurd least.1 (none ▸ Set.notMem_empty closing)
  · rw [found, least.unique (closeAt_eq_some here opens inside found).2.2.2]

theorem closeAt_eq_none_iff (inside : stop ≤ tokens.length) :
    closeAt tokens 0 opening stop = .ok none ↔ evenPlaces tokens opening stop = ∅ := by
  refine ⟨closeAt_eq_none here opens inside, fun none => ?_⟩
  rcases closeAt_isOk inside here opens with ⟨_ | other, found⟩
  · exact found
  · have least := (closeAt_eq_some here opens inside found).2.2.2
    exact absurd least.1 (none ▸ Set.notMem_empty other)

end

/-! ## Governed statements -/

/-- The block of a keyword, from its opening brace to its closing one. -/
structure BlockAt (tokens : List Token) (keyword stop opening closing : Nat) : Prop where
  opened : openAt tokens (keyword + 1) stop = .ok (some opening)
  closed : closeAt tokens 0 opening stop = .ok (some closing)

/-- A block lies inside of the stretch that its keyword is parsed in, and its braces are paired. -/
theorem BlockAt.within (block : BlockAt tokens keyword stop opening closing)
    (inside : stop ≤ tokens.length) :
    keyword < opening ∧ opening < closing ∧ closing < stop ∧
      Braced (stretch tokens (opening + 1) closing) := by
  rcases splitAtOpen_of_openAt inside block.opened with ⟨behind, _, brace, here, opens, _⟩
  rcases closeAt_eq_some here opens inside block.closed with ⟨further, ahead, braced, _⟩
  exact ⟨behind, further, ahead, braced⟩

section

variable (inside : stop ≤ tokens.length) (before : keyword < stop)

include inside before

/-- A keyword in place governs what it governs among its tokens. -/
theorem exists_runFrom_governedAt (symbols : Symbols) : ∃ token result later,
    (governed limit depth token (stretch tokens (keyword + 1) stop)).runFrom symbols =
      (result, later) ∧
    (governedAt tokens limit depth keyword stop).runFrom symbols =
      .ok (resumeAt stop <$> result, later) := by
  have here : tokens[keyword]? = some tokens[keyword] := List.getElem?_eq_getElem (by omega)
  generalize tokens[keyword] = token at here
  rcases parsed : (governed limit depth token (stretch tokens (keyword + 1) stop)).runFrom
    symbols with ⟨result, later⟩
  refine ⟨token, result, later, parsed, ?_⟩
  rw [governedAt_eq inside here fun start closing _ ordered ahead =>
    statementsAt_start (by omega) ordered, Placed.runFrom_ofParse, Parse.runFrom_bind, parsed]
  cases result with
  | error error => rfl
  | ok found => rfl

theorem governedAt_resumes (symbols : Symbols) :
    ∃ result later,
      (governedAt tokens limit depth keyword stop).runFrom symbols = .ok (result, later) ∧
      ∀ statement next, result = .ok (statement, next) → keyword < next ∧ next ≤ stop := by
  rcases @exists_runFrom_governedAt tokens limit depth keyword stop inside before symbols with
    ⟨token, result, later, parsed, same⟩
  refine ⟨_, later, same, ?_⟩
  intro statement next resumes
  cases result with
  | error error => cases resumes
  | ok found =>
      cases resumes
      exact ⟨(stretch_resume inside before parsed).1, Nat.sub_le stop _⟩

/-- Where braces are paired, no block is left open. -/
theorem governedAt_ne_unclosed {start : Nat} (behind : start ≤ keyword)
    (braced : Braced (stretch tokens start stop)) (symbols later : Symbols) (position : Position) :
    (governedAt tokens limit depth keyword stop).runFrom symbols ≠
      .ok (.error ⟨.unclosedBlock, position⟩, later) := by
  rcases @exists_runFrom_governedAt tokens limit depth keyword stop inside before symbols with
    ⟨token, result, left, parsed, same⟩
  rw [same]
  intro failed
  cases result with
  | ok found => cases failed
  | error error =>
      cases failed
      have reports : Parse.ReportsOpen (Unclosed (stretch tokens (keyword + 1) stop)) _
          (governed limit depth token (stretch tokens (keyword + 1) stop)) :=
        reportsOpen_governed fun block _ => reportsOpen_statementsOf
      rcases reports.exists_brace parsed with ⟨brace, unclosed, _⟩
      have isBack : stretch tokens (keyword + 1) stop <:+ stretch tokens start stop :=
        ⟨_, stretch_append (by omega) before (by omega)⟩
      exact braced.not_unclosed isBack unclosed

end

/-! ## Programs -/

/-- The places of a block that is reported as unclosed. -/
theorem exists_unclosed_places {symbols later : Symbols} {position : Position}
    (failed : (programOf limit tokens).runFrom symbols =
      (.error ⟨.unclosedBlock, position⟩, later)) :
    ∃ keyword opening token brace, tokens[keyword]? = some token ∧ token.kind.isControl ∧
      Braced (tokens.take keyword) ∧
      openAt tokens (keyword + 1) tokens.length = .ok (some opening) ∧
      closeAt tokens 0 opening tokens.length = .ok none ∧
      tokens[opening]? = some brace ∧ brace.kind = .openBlock ∧ brace.position = position := by
  have reports : Parse.ReportsOpen (LeftOpen tokens) _ (programOf limit tokens) :=
    reportsOpen_statementsOf
  rcases reports.exists_brace failed with ⟨brace, leftOpen, named⟩
  rcases leftOpen with ⟨outermost, isControl, condition, block, opened, unclosed⟩
  rename_i before after token
  have inside := Nat.le_refl (before ++ token :: after).length
  rcases stretch_parts inside (stretch_whole _) with ⟨_, here, _, isAfter⟩
  rw [Nat.zero_add] at here isAfter
  rw [isAfter] at opened
  rcases splitAtOpen_eq_some opened with ⟨whole, opens, _⟩
  rcases stretch_parts inside whole with ⟨within, braceHere, _, isBlock⟩
  rw [isBlock] at unclosed
  refine ⟨before.length, _, token, brace, here, isControl, ?_, ?_, ?_, braceHere, opens, named⟩
  · rw [List.take_left]
    exact outermost
  · rw [openAt_eq inside, opened]
    rfl
  · rw [closeAt_opening inside braceHere opens within, unclosed]
    rfl

/-- Blocks are found wherever they are, and nothing outside of a buffer is looked at. A parse in
place passes all its checks and is the parse of the tokens. What a keyword governs ends after the
keyword, and within the stretch at hand. The scan from an opening brace stops at the first place
where the braces come out even, and fails if there is none. So the block of a keyword is smaller
than what it is part of, and its braces are paired; no statement inside of it is reported as
unclosed, and whatever is reported so is the opening brace of a keyword that stands in no block. -/
theorem programOf_blocks (limit : Nat) (tokens : List Token) :
    (∀ symbols, (programAt tokens limit).runFrom symbols =
      .ok ((programOf limit tokens).runFrom symbols)) ∧
    (∀ depth keyword stop symbols, keyword < stop → stop ≤ tokens.length → ∃ result later,
      (governedAt tokens limit depth keyword stop).runFrom symbols = .ok (result, later) ∧
        ∀ statement next, result = .ok (statement, next) → keyword < next ∧ next ≤ stop) ∧
    (∀ opening stop brace, tokens[opening]? = some brace → brace.kind = .openBlock →
      stop ≤ tokens.length →
      (∀ closing, closeAt tokens 0 opening stop = .ok (some closing) ↔
        IsLeast (evenPlaces tokens opening stop) closing) ∧
      (closeAt tokens 0 opening stop = .ok none ↔ evenPlaces tokens opening stop = ∅)) ∧
    (∀ keyword stop opening closing, stop ≤ tokens.length →
      BlockAt tokens keyword stop opening closing →
      (keyword < opening ∧ opening < closing ∧ closing < stop) ∧
      Braced (stretch tokens (opening + 1) closing) ∧
      ∀ depth inner symbols position later, opening < inner → inner < closing →
        (governedAt tokens limit depth inner closing).runFrom symbols ≠
          .ok (.error ⟨.unclosedBlock, position⟩, later)) ∧
    ∀ symbols position later,
      (programOf limit tokens).runFrom symbols = (.error ⟨.unclosedBlock, position⟩, later) →
      ∃ keyword opening token brace, tokens[keyword]? = some token ∧ token.kind.isControl ∧
        Braced (tokens.take keyword) ∧
        openAt tokens (keyword + 1) tokens.length = .ok (some opening) ∧
        closeAt tokens 0 opening tokens.length = .ok none ∧
        tokens[opening]? = some brace ∧ brace.kind = .openBlock ∧ brace.position = position := by
  refine ⟨?_, ?_, ?_, ?_, ?_⟩
  · intro symbols
    rw [programAt_eq, Placed.runFrom_ofParse]
  · intro depth keyword stop symbols before inside
    exact governedAt_resumes inside before symbols
  · intro opening stop brace here opens inside
    exact ⟨fun closing => closeAt_eq_some_iff here opens inside,
      closeAt_eq_none_iff here opens inside⟩
  · intro keyword stop opening closing inside block
    rcases block.within inside with ⟨behind, further, ahead, braced⟩
    refine ⟨⟨behind, further, ahead⟩, braced, ?_⟩
    intro depth inner symbols position later after before
    exact governedAt_ne_unclosed (by omega) before after braced symbols later position
  · intro symbols position later failed
    exact exists_unclosed_places failed

/-- A block in a block, and then one that is not closed. -/
theorem programOf_blocks_unclosed :
    let tokens : List Token := [⟨.control .loop, "while", ⟨1, 0⟩⟩, ⟨.boolean, "true", ⟨1, 6⟩⟩,
      ⟨.openBlock, "\x7b", ⟨1, 11⟩⟩, ⟨.control .conditional, "if", ⟨1, 13⟩⟩,
      ⟨.boolean, "true", ⟨1, 16⟩⟩, ⟨.openBlock, "\x7b", ⟨1, 21⟩⟩, ⟨.closeBlock, "\x7d", ⟨1, 23⟩⟩,
      ⟨.closeBlock, "\x7d", ⟨1, 25⟩⟩, ⟨.control .conditional, "if", ⟨2, 0⟩⟩,
      ⟨.boolean, "true", ⟨2, 3⟩⟩, ⟨.openBlock, "\x7b", ⟨2, 8⟩⟩]
    BlockAt tokens 0 11 2 7 ∧ Braced (stretch tokens 3 7) ∧
      IsLeast (evenPlaces tokens 2 11) 7 ∧ evenPlaces tokens 10 11 = ∅ ∧
      (programOf 256 tokens).runFrom {} = (.error ⟨.unclosedBlock, ⟨2, 8⟩⟩, {}) ∧
      ∃ keyword opening token brace, tokens[keyword]? = some token ∧ token.kind.isControl ∧
        Braced (tokens.take keyword) ∧
        openAt tokens (keyword + 1) tokens.length = .ok (some opening) ∧
        closeAt tokens 0 opening tokens.length = .ok none ∧
        tokens[opening]? = some brace ∧ brace.kind = .openBlock ∧ brace.position = ⟨2, 8⟩ := by
  intro tokens
  rcases programOf_blocks 256 tokens with ⟨_, _, scans, blocks, reported⟩
  have block : BlockAt tokens 0 11 2 7 := ⟨by cbv, by cbv⟩
  have failed : (programOf 256 tokens).runFrom {} =
      (.error ⟨.unclosedBlock, ⟨2, 8⟩⟩, {}) := by cbv
  exact ⟨block, (blocks 0 11 2 7 (by decide) block).2.1,
    ((scans 2 11 _ rfl rfl (by decide)).1 7).mp block.closed,
    (scans 10 11 _ rfl rfl (by decide)).2.mp (by cbv), failed, reported _ _ _ failed⟩

end Scriptlet
