import Scriptlet.Proofs.Blocks.Braces
import Scriptlet.Proofs.Concatenation

/-! Parsing in place. No token is copied: runs, conditions and blocks are stretches of one buffer,
each given by two places.

Places can go wrong where lists cannot. So every place is checked before it is used, every count
before it is lowered, and a parse goes on only with a stretch smaller than the one at hand. A check
that fails is a breach. None ever does: on every buffer a parse in place is the parse of its
tokens. -/

namespace Scriptlet

/-! ## Stretches -/

/-- The items from `start` up to `stop`. -/
def stretch (items : List α) (start stop : Nat) : List α :=
  (items.take stop).drop start

section

variable {items : List α} {start middle stop : Nat}

theorem stretch_of_le (none : stop ≤ start) : stretch items start stop = [] := by
  rw [stretch, List.drop_eq_nil_iff, List.length_take]
  omega

theorem stretch_whole (items : List α) : stretch items 0 items.length = items :=
  List.take_length

theorem length_stretch (inside : stop ≤ items.length) :
    (stretch items start stop).length = stop - start := by
  rw [stretch, List.length_drop, List.length_take]
  omega

theorem stretch_cons {item : α} (here : items[start]? = some item) (before : start < stop) :
    stretch items start stop = item :: stretch items (start + 1) stop := by
  rcases List.getElem?_eq_some_iff.mp here with ⟨inside, rfl⟩
  have within : start < (items.take stop).length := by
    rw [List.length_take]
    omega
  rw [stretch, List.drop_eq_getElem_cons within, List.getElem_take, stretch]

theorem stretch_append (first : start ≤ middle) (second : middle ≤ stop)
    (inside : middle ≤ items.length) :
    stretch items start middle ++ stretch items middle stop = stretch items start stop := by
  have cut : items.take stop = items.take middle ++ stretch items middle stop := by
    have parts := List.take_append_drop middle (items.take stop)
    rw [List.take_take, Nat.min_eq_left second] at parts
    exact parts.symm
  have length : (items.take middle).length = middle := List.length_take_of_le inside
  conv => rhs; rw [stretch, cut, List.drop_append_of_le_length (by omega)]
  rfl

/-- The parts of a stretch are stretches again. -/
theorem stretch_cut (inside : stop ≤ items.length) (ordered : start ≤ stop) {front back : List α}
    (parts : stretch items start stop = front ++ back) :
    start + front.length ≤ stop ∧ front = stretch items start (start + front.length) ∧
      back = stretch items (start + front.length) stop := by
  have length : (stretch items start stop).length = stop - start := length_stretch inside
  rw [parts, List.length_append] at length
  have within : start + front.length ≤ stop := by omega
  rw [← stretch_append (Nat.le_add_right start front.length) within (by omega)] at parts
  have same := List.append_inj parts (by rw [length_stretch (by omega)]; omega)
  exact ⟨within, same.1.symm, same.2.symm⟩

/-- An item of a stretch, and the stretches around it. -/
theorem stretch_parts (inside : stop ≤ items.length) {before after : List α} {item : α}
    (parts : stretch items start stop = before ++ item :: after) :
    start + before.length < stop ∧ items[start + before.length]? = some item ∧
      before = stretch items start (start + before.length) ∧
      after = stretch items (start + before.length + 1) stop := by
  have ordered : start ≤ stop := by
    by_contra reversed
    rw [stretch_of_le (by omega)] at parts
    simp at parts
  rcases stretch_cut inside ordered parts with ⟨_, isBefore, isBack⟩
  have within : start + before.length < stop := by
    by_contra none
    rw [stretch_of_le (by omega)] at isBack
    cases isBack
  have here : items[start + before.length]? = some items[start + before.length] :=
    List.getElem?_eq_getElem (by omega)
  rw [stretch_cons here within] at isBack
  rcases List.cons.inj isBack with ⟨rfl, rfl⟩
  exact ⟨within, here, isBefore, rfl⟩

end

/-! ## Checks -/

/-- A check that failed. -/
inductive Breach where
  /-- There is no token at the place. -/
  | outside (place : Nat)
  /-- A block is closed at the place while none is open. -/
  | noneOpen (place : Nat)
  /-- What goes on from the place is no smaller than what it is part of. -/
  | notSmaller (place : Nat)
deriving DecidableEq, Repr

/-- A parse that ends with a breach if a check fails. -/
abbrev Placed := ExceptT SourceError (StateT Symbols (Except Breach))

namespace Placed

/-- What a parse gives and the tables that it leaves, unless there is a breach. -/
def runFrom (step : Placed α) (symbols : Symbols) :
    Except Breach (Except SourceError α × Symbols) :=
  step.run symbols

def fail (cause : SourceError.Cause) (position : Position) : Placed α :=
  throw ⟨cause, position⟩

def ofChecked (result : Except Breach α) : Placed α :=
  fun symbols => result.map fun value => (.ok value, symbols)

/-- A parse that checks nothing. -/
def ofParse (step : Parse α) : Placed α :=
  fun symbols => .ok (step.runFrom symbols)

@[simp] theorem runFrom_ofParse (step : Parse α) (symbols : Symbols) :
    (ofParse step).runFrom symbols = .ok (step.runFrom symbols) := rfl

theorem ofChecked_ok (value : α) : ofChecked (.ok value) = pure value := rfl

theorem ofParse_pure (value : α) : ofParse (pure value) = pure value := rfl

/-- Only what the first step can give is checked in the second. -/
theorem ofParse_bind {step : Parse α} {next : α → Placed β} {other : α → Parse β}
    (same : ∀ value symbols later, step.runFrom symbols = (.ok value, later) →
      next value = ofParse (other value)) :
    ofParse step >>= next = ofParse (step >>= other) := by
  funext symbols
  change ExceptT.bindCont next (step.runFrom symbols).1 (step.runFrom symbols).2 =
    .ok ((step >>= other).runFrom symbols)
  rw [Parse.runFrom_bind]
  have rest := fun value => same value symbols
  generalize step.runFrom symbols = ending at rest ⊢
  rcases ending with ⟨error | value, later⟩
  · rfl
  · exact congrArg (runFrom · later) (rest value later rfl)

theorem ofParse_bind_ofParse (step : Parse α) (next : α → Parse β) :
    ofParse (step >>= next) = ofParse step >>= fun value => ofParse (next value) :=
  (ofParse_bind fun _ _ _ _ => rfl).symm

end Placed

/-! ## Places of braces -/

def tokenAt (tokens : List Token) (place : Nat) : Except Breach Token :=
  match tokens[place]? with
  | some token => .ok token
  | none => .error (.outside place)

/-- The place of the first opening brace. A closing brace or an end mark in front of it means that
there is none. -/
def openAt (tokens : List Token) (place stop : Nat) : Except Breach (Option Nat) :=
  if place < stop then do
    match (← tokenAt tokens place).kind with
    | .openBlock => return some place
    | .closeBlock | .endOfInput => return none
    | _ => openAt tokens (place + 1) stop
  else return none
termination_by stop - place

/-- The place of the closing brace that brings the number of open blocks back to zero. -/
def closeAt (tokens : List Token) (openBlocks place stop : Nat) : Except Breach (Option Nat) :=
  if place < stop then do
    match (← tokenAt tokens place).kind with
    | .openBlock => closeAt tokens (openBlocks + 1) (place + 1) stop
    | .closeBlock =>
      if openBlocks = 0 then throw (.noneOpen place)
      else if openBlocks - 1 = 0 then return some place
      else closeAt tokens (openBlocks - 1) (place + 1) stop
    | _ => closeAt tokens openBlocks (place + 1) stop
  else return none
termination_by stop - place

/-! ## Statements in place -/

def straightAt (tokens : List Token) (limit start stop : Nat) : Placed (List Tree) :=
  if stop ≤ start then return []
  else if stop ≤ tokens.length then .ofParse (straightStatements limit (stretch tokens start stop))
  else .ofChecked (.error (.outside tokens.length))

def conditionAt (tokens : List Token) (limit keyword opening : Nat) : Placed Tree := do
  match ← straightAt tokens limit (keyword + 1) opening with
  | [condition] => return condition
  | _ => do
    let token ← .ofChecked (tokenAt tokens keyword)
    .fail (.invalidCondition token.text) token.position

mutual

/-- The statements from `start` up to `stop`. No keyword and no brace stands before `place`. -/
def statementsAt (tokens : List Token) (limit depth start place stop : Nat) : Placed (List Tree) :=
  if _ : place < stop then do
    let token ← .ofChecked (tokenAt tokens place)
    if token.kind.isControl then do
      let before ← straightAt tokens limit start place
      let (statement, next) ← governedAt tokens limit depth place stop
      if _ : place < next ∧ next ≤ stop then do
        let following ← statementsAt tokens limit depth next next stop
        return before ++ statement :: following
      else .ofChecked (.error (.notSmaller next))
    else if token.kind = .openBlock ∨ token.kind = .closeBlock then
      .fail (.unexpectedToken token.text) token.position
    else statementsAt tokens limit depth start (place + 1) stop
  else straightAt tokens limit start stop
termination_by (stop - place, 1)

/-- The statement of a keyword, and the place after its block. -/
def governedAt (tokens : List Token) (limit depth keyword stop : Nat) : Placed (Tree × Nat) := do
  let token ← .ofChecked (tokenAt tokens keyword)
  if limit ≤ depth then .fail (.nestingTooDeep limit) token.position
  else
    match ← .ofChecked (openAt tokens (keyword + 1) stop) with
    | none => .fail (.missingBlock token.text) token.position
    | some opening => do
      let condition ← conditionAt tokens limit keyword opening
      match ← .ofChecked (closeAt tokens 0 opening stop) with
      | none => do
        let brace ← .ofChecked (tokenAt tokens opening)
        .fail .unclosedBlock brace.position
      | some closing =>
        if _ : keyword < opening ∧ opening < closing ∧ closing < stop then do
          let body ← statementsAt tokens limit (depth + 1) (opening + 1) (opening + 1) closing
          return (.control token.controlOf condition body token.position, closing + 1)
        else .ofChecked (.error (.notSmaller opening))
termination_by (stop - keyword, 0)

end

/-- The statements of a whole buffer. -/
def programAt (tokens : List Token) (limit : Nat) : Placed (List Tree) :=
  statementsAt tokens limit 0 0 0 tokens.length

/-! ## A buffer and its tokens -/

section

variable {tokens : List Token}

theorem tokenAt_eq {place : Nat} {token : Token} (here : tokens[place]? = some token) :
    tokenAt tokens place = .ok token := by
  rw [tokenAt, here]

section

variable {place stop : Nat} {token : Token} (here : tokens[place]? = some token)
  (before : place < stop)

include here before

theorem openAt_opens (opens : token.kind = .openBlock) :
    openAt tokens place stop = .ok (some place) := by
  rw [openAt, if_pos before, tokenAt_eq here]
  dsimp only [bind, Except.bind]
  rw [opens]
  rfl

theorem openAt_blocked (blocked : token.kind = .closeBlock ∨ token.kind = .endOfInput) :
    openAt tokens place stop = .ok none := by
  rw [openAt, if_pos before, tokenAt_eq here]
  dsimp only [bind, Except.bind]
  rcases blocked with closes | ends
  · rw [closes]
    rfl
  · rw [ends]
    rfl

theorem openAt_passes (notOpen : token.kind ≠ .openBlock) (notClose : token.kind ≠ .closeBlock)
    (notEnd : token.kind ≠ .endOfInput) :
    openAt tokens place stop = openAt tokens (place + 1) stop := by
  rw [openAt, if_pos before, tokenAt_eq here]
  dsimp only [bind, Except.bind]
  split
  · contradiction
  · contradiction
  · contradiction
  · rfl

/-- With a block open, no closing brace is one too many before the scan is over. -/
theorem closeAt_step (count : Nat) :
    closeAt tokens (count + 1) place stop =
      if count + token.rise < 0 then .ok (some place)
      else closeAt tokens ((count + token.rise).toNat + 1) (place + 1) stop := by
  rw [closeAt, if_pos before, tokenAt_eq here]
  dsimp only [bind, Except.bind]
  split
  · rename_i opens
    rw [token.rise_of_opens opens, if_neg (by omega)]
    rfl
  · rename_i closes
    rw [token.rise_of_closes closes, if_neg (by omega)]
    by_cases last : count = 0
    · subst last
      rfl
    · have fewer : (count + -1 : Int).toNat + 1 = count + 1 - 1 := by omega
      rw [if_neg (by omega), if_neg (by omega), fewer]
  · rename_i notOpen notClose
    rw [token.rise_of_other notOpen notClose, if_neg (by omega), add_zero, Int.toNat_natCast]

end

theorem openAt_eq {stop : Nat} (inside : stop ≤ tokens.length) (place : Nat) :
    openAt tokens place stop =
      .ok ((splitAtOpen (stretch tokens place stop)).map fun found => place + found.1.length) := by
  induction distance : stop - place generalizing place with
  | zero =>
      rw [openAt, if_neg (by omega), stretch_of_le (by omega)]
      rfl
  | succ rest induction =>
      have before : place < stop := by omega
      have here : tokens[place]? = some tokens[place] := List.getElem?_eq_getElem (by omega)
      generalize tokens[place] = token at here
      rw [stretch_cons here before, splitAtOpen]
      split
      · rename_i opens
        exact openAt_opens here before opens
      · rename_i closes
        exact openAt_blocked here before (.inl closes)
      · rename_i ends
        exact openAt_blocked here before (.inr ends)
      · rename_i notOpen notClose notEnd
        rw [openAt_passes here before notOpen notClose notEnd, induction (place + 1) (by omega),
          Option.map_map]
        congr
        funext found
        simp [Nat.add_right_comm, Nat.add_assoc]

/-- The scan for a closing brace, with a block open. -/
theorem closeAt_eq {stop : Nat} (inside : stop ≤ tokens.length) (count place : Nat) :
    closeAt tokens (count + 1) place stop =
      .ok ((splitAtClose (count + 1) (stretch tokens place stop)).map
        fun found => place + found.1.length) := by
  induction distance : stop - place generalizing count place with
  | zero =>
      rw [closeAt, if_neg (by omega), stretch_of_le (by omega)]
      rfl
  | succ rest induction =>
      have before : place < stop := by omega
      have here : tokens[place]? = some tokens[place] := List.getElem?_eq_getElem (by omega)
      rw [closeAt_step here before, stretch_cons here before, splitAtClose_cons]
      split
      · rfl
      · rw [induction _ (place + 1) (by omega), Option.map_map]
        congr
        funext found
        simp [Nat.add_right_comm, Nat.add_assoc]

/-! What a scan finds, as stretches. -/

theorem splitAtOpen_of_openAt_none {place stop : Nat} (inside : stop ≤ tokens.length)
    (found : openAt tokens place stop = .ok none) :
    splitAtOpen (stretch tokens place stop) = none := by
  rw [openAt_eq inside, Except.ok.injEq, Option.map_eq_none_iff] at found
  exact found

theorem splitAtOpen_of_openAt {place opening stop : Nat} (inside : stop ≤ tokens.length)
    (found : openAt tokens place stop = .ok (some opening)) :
    place ≤ opening ∧ opening < stop ∧
      ∃ brace, tokens[opening]? = some brace ∧ brace.kind = .openBlock ∧
        splitAtOpen (stretch tokens place stop) =
          some (stretch tokens place opening, brace, stretch tokens (opening + 1) stop) := by
  rw [openAt_eq inside, Except.ok.injEq, Option.map_eq_some_iff] at found
  rcases found with ⟨⟨condition, brace, after⟩, opened, rfl⟩
  rcases splitAtOpen_eq_some opened with ⟨whole, opens, _⟩
  rcases stretch_parts inside whole with ⟨before, here, isCondition, isAfter⟩
  rw [← isCondition, ← isAfter]
  exact ⟨Nat.le_add_right place _, before, brace, here, opens, opened⟩

section

variable {opening stop : Nat} (inside : stop ≤ tokens.length) {brace : Token}
  (here : tokens[opening]? = some brace) (opens : brace.kind = .openBlock)

include inside here opens

/-- On an opening brace the count rises before it can fall. -/
theorem closeAt_opening (before : opening < stop) :
    closeAt tokens 0 opening stop =
      .ok ((splitAtClose 1 (stretch tokens (opening + 1) stop)).map
        fun found => opening + 1 + found.1.length) := by
  rw [closeAt, if_pos before, tokenAt_eq here]
  dsimp only [bind, Except.bind]
  rw [opens]
  exact closeAt_eq inside 0 (opening + 1)

theorem closeAt_isOk : ∃ found, closeAt tokens 0 opening stop = .ok found := by
  by_cases before : opening < stop
  · exact ⟨_, closeAt_opening inside here opens before⟩
  · rw [closeAt, if_neg before]
    exact ⟨none, rfl⟩

theorem splitAtClose_of_closeAt_none (found : closeAt tokens 0 opening stop = .ok none) :
    splitAtClose 1 (stretch tokens (opening + 1) stop) = none := by
  by_cases before : opening < stop
  · rw [closeAt_opening inside here opens before, Except.ok.injEq, Option.map_eq_none_iff] at found
    exact found
  · rw [stretch_of_le (by omega)]
    rfl

theorem splitAtClose_of_closeAt {closing : Nat}
    (found : closeAt tokens 0 opening stop = .ok (some closing)) :
    opening < closing ∧ closing < stop ∧
      ∃ partner, tokens[closing]? = some partner ∧ partner.kind = .closeBlock ∧
        splitAtClose 1 (stretch tokens (opening + 1) stop) =
          some (stretch tokens (opening + 1) closing, stretch tokens (closing + 1) stop) := by
  have before : opening < stop := by
    by_contra none
    rw [closeAt, if_neg none] at found
    cases found
  rw [closeAt_opening inside here opens before, Except.ok.injEq, Option.map_eq_some_iff] at found
  rcases found with ⟨⟨block, rest⟩, closed, rfl⟩
  rcases splitAtClose_eq_some closed with ⟨partner, closes, whole⟩
  rcases stretch_parts inside whole with ⟨within, partnerHere, isBlock, isRest⟩
  rw [← isBlock, ← isRest]
  exact ⟨by dsimp only; omega, within, partner, partnerHere, closes, closed⟩

end

/-! ## Statements and their tokens -/

theorem straightAt_eq {limit start stop : Nat} (inside : stop ≤ tokens.length) :
    straightAt tokens limit start stop =
      .ofParse (straightStatements limit (stretch tokens start stop)) := by
  rw [straightAt, if_pos inside]
  split
  · rename_i none
    rw [stretch_of_le none]
    rfl
  · rfl

theorem conditionAt_eq {limit keyword opening : Nat} (inside : opening ≤ tokens.length)
    {token : Token} (here : tokens[keyword]? = some token) :
    conditionAt tokens limit keyword opening =
      .ofParse (soleCondition limit token (stretch tokens (keyword + 1) opening)) := by
  rw [conditionAt, soleCondition, straightAt_eq inside, tokenAt_eq here]
  apply Placed.ofParse_bind
  intro trees _ _ _
  rcases trees with _ | ⟨condition, _ | ⟨second, others⟩⟩
  · rfl
  · rfl
  · rfl

/-- A governed statement, and the place at which what it leaves begins. -/
def resumeAt (stop : Nat) (found : Tree × List Token) : Tree × Nat :=
  (found.1, stop - found.2.length)

theorem governedAt_eq {limit depth keyword stop : Nat} (inside : stop ≤ tokens.length)
    {token : Token} (here : tokens[keyword]? = some token)
    (inner : ∀ start closing, keyword < start → start ≤ closing → closing < stop →
      statementsAt tokens limit (depth + 1) start start closing =
        .ofParse (statementsOf limit (depth + 1) (stretch tokens start closing))) :
    governedAt tokens limit depth keyword stop =
      .ofParse (governed limit depth token (stretch tokens (keyword + 1) stop) >>= fun found =>
        return resumeAt stop found) := by
  rw [governedAt, governed_eq, tokenAt_eq here, Placed.ofChecked_ok, pure_bind]
  by_cases deep : limit ≤ depth
  · rw [if_pos deep, if_pos deep]
    rfl
  have opens : ∃ found, openAt tokens (keyword + 1) stop = .ok found := ⟨_, openAt_eq inside _⟩
  rcases opens with ⟨_ | opening, opened⟩
  · rw [if_neg deep, if_neg deep, opened, splitAtOpen_of_openAt_none inside opened]
    rfl
  rcases splitAtOpen_of_openAt inside opened with ⟨behind, before, brace, braceHere, opens, cut⟩
  rw [if_neg deep, if_neg deep, opened, cut, Placed.ofChecked_ok, pure_bind]
  dsimp only
  rw [conditionAt_eq (by omega) here, bind_assoc]
  apply Placed.ofParse_bind
  intro condition _ _ _
  rcases closeAt_isOk inside braceHere opens with ⟨_ | closing, closed⟩
  · rw [closed, splitAtClose_of_closeAt_none inside braceHere opens closed, tokenAt_eq braceHere]
    rfl
  rcases splitAtClose_of_closeAt inside braceHere opens closed with ⟨further, ahead, _, _, _, cut⟩
  rw [closed, cut, Placed.ofChecked_ok, pure_bind]
  dsimp only
  rw [dif_pos ⟨behind, further, ahead⟩, inner _ _ (by omega) further ahead, bind_assoc]
  apply Placed.ofParse_bind
  intro body _ _ _
  have left : stop - (stretch tokens (closing + 1) stop).length = closing + 1 := by
    rw [length_stretch inside]
    omega
  rw [pure_bind, resumeAt, left]
  rfl

/-- What a governed statement leaves begins after its keyword. -/
theorem stretch_resume {limit depth keyword stop : Nat} (inside : stop ≤ tokens.length)
    (before : keyword < stop) {token : Token} {found : Tree × List Token}
    {symbols later : Symbols}
    (parsed : (governed limit depth token (stretch tokens (keyword + 1) stop)).runFrom symbols =
      (.ok found, later)) :
    keyword < stop - found.2.length ∧
      found.2 = stretch tokens (stop - found.2.length) stop := by
  rcases (governed_append (Parse.outcome_eq_ok.mpr parsed)).1 with ⟨block, parts⟩
  rcases stretch_cut inside before parts with ⟨within, _, isRest⟩
  have length := congrArg List.length isRest
  rw [length_stretch inside] at length
  have place : stop - found.2.length = keyword + 1 + block.length := by omega
  rw [place]
  exact ⟨by omega, isRest⟩

section

variable {limit depth start place stop : Nat} (inside : stop ≤ tokens.length)
  (first : start ≤ place) (straight : Straight (stretch tokens start place)) {token : Token}
  (here : tokens[place]? = some token) (before : place < stop)

include inside first here before

theorem stretch_around :
    stretch tokens start stop =
      stretch tokens start place ++ token :: stretch tokens (place + 1) stop := by
  rw [← stretch_cons here before, stretch_append first (by omega) (by omega)]

include straight

/-- At a keyword, if all that is parsed further on is parsed as its tokens are. -/
theorem statementsAt_control (isControl : token.kind.isControl)
    (inner : ∀ depth start closing, place < start → start ≤ closing → closing ≤ stop →
      statementsAt tokens limit depth start start closing =
        .ofParse (statementsOf limit depth (stretch tokens start closing))) :
    statementsAt tokens limit depth start place stop =
      .ofParse (statementsOf limit depth (stretch tokens start stop)) := by
  have block (start closing : Nat) (behind : place < start) (ordered : start ≤ closing)
      (ahead : closing < stop) := inner (depth + 1) start closing behind ordered ahead.le
  rw [statementsAt, dif_pos before, tokenAt_eq here, Placed.ofChecked_ok, pure_bind,
    if_pos isControl, stretch_around inside first here before,
    statementsOf_control limit depth straight isControl, straightAt_eq (by omega)]
  apply Placed.ofParse_bind
  intro earlier _ _ _
  rw [governedAt_eq inside here block, Placed.ofParse_bind_ofParse, bind_assoc]
  apply Placed.ofParse_bind
  intro found _ _ parsed
  -- The check of the next place is passed by every place that a block can end at.
  rcases stretch_resume inside before parsed with ⟨behind, isRest⟩
  rw [Placed.ofParse_pure, pure_bind]
  dsimp only [resumeAt]
  rw [dif_pos ⟨behind, Nat.sub_le stop _⟩, inner _ _ _ behind (Nat.sub_le stop _) (Nat.le_refl _),
    ← isRest]
  apply Placed.ofParse_bind
  intro following _ _ _
  rfl

theorem statementsAt_brace (isBrace : token.kind = .openBlock ∨ token.kind = .closeBlock) :
    statementsAt tokens limit depth start place stop =
      .ofParse (statementsOf limit depth (stretch tokens start stop)) := by
  have notControl : token.kind.isControl = false := by
    rcases isBrace with opens | closes
    · rw [opens]
      rfl
    · rw [closes]
      rfl
  have stops : token.isStraight = false := by
    rcases isBrace with opens | closes
    · simp [Token.isStraight, opens]
    · simp [Token.isStraight, closes]
  rw [statementsAt, dif_pos before, tokenAt_eq here, Placed.ofChecked_ok, pure_bind,
    if_neg (by simp [notControl]), if_pos isBrace, stretch_around inside first here before,
    statementsOf_brace limit depth straight stops notControl]
  rfl

theorem straight_stretch_succ (isStraight : token.isStraight) :
    Straight (stretch tokens start (place + 1)) := by
  have longer := stretch_around (by omega) first here (Nat.lt_succ_self place)
  rw [stretch_of_le (Nat.le_refl _)] at longer
  intro selected member
  rw [longer] at member
  rcases List.mem_append.mp member with earlier | last
  · exact straight selected earlier
  · rw [List.mem_singleton.mp last]
    exact isStraight

end

theorem straight_stretch_self (start : Nat) : Straight (stretch tokens start start) := by
  rw [stretch_of_le (Nat.le_refl start)]
  exact fun _ member => nomatch member

theorem statementsAt_straight {limit depth start place stop : Nat} {token : Token}
    (here : tokens[place]? = some token) (before : place < stop) (isStraight : token.isStraight) :
    statementsAt tokens limit depth start place stop =
      statementsAt tokens limit depth start (place + 1) stop := by
  simp only [Token.isStraight, Bool.not_eq_true', Bool.or_eq_false_iff, beq_eq_false_iff_ne]
    at isStraight
  rw [statementsAt, dif_pos before, tokenAt_eq here, Placed.ofChecked_ok, pure_bind,
    if_neg (by simp [isStraight.1.1]), if_neg (by simp [isStraight.1.2, isStraight.2])]

/-- A stretch that is parsed in place is parsed as its tokens are. -/
theorem statementsAt_eq {limit depth start place stop : Nat} (inside : stop ≤ tokens.length)
    (first : start ≤ place) (second : place ≤ stop)
    (straight : Straight (stretch tokens start place)) :
    statementsAt tokens limit depth start place stop =
      .ofParse (statementsOf limit depth (stretch tokens start stop)) := by
  -- The induction is on what is left to scan: a block is smaller, and so is what follows it.
  induction distance : stop - place using Nat.strong_induction_on
    generalizing depth start place stop with
  | _ distance induction =>
      subst distance
      by_cases before : place < stop
      · have here : tokens[place]? = some tokens[place] := List.getElem?_eq_getElem (by omega)
        by_cases isStraight : tokens[place].isStraight
        · have longer := straight_stretch_succ inside first straight here before isStraight
          rw [statementsAt_straight here before isStraight]
          exact induction _ (by omega) inside (by omega) before longer rfl
        · by_cases isControl : tokens[place].kind.isControl
          · apply statementsAt_control inside first straight here before isControl
            intro depth start closing behind ordered ahead
            exact induction _ (by omega) (by omega) (Nat.le_refl _) ordered
              (straight_stretch_self start) rfl
          · apply statementsAt_brace inside first straight here before
            simpa [Token.isStraight, isControl, imp_iff_not_or] using isStraight
      · rw [statementsAt, dif_neg before, straightAt_eq inside]
        cases Nat.le_antisymm second (Nat.le_of_not_lt before)
        rw [statementsOf_straight limit depth straight]

theorem statementsAt_start {limit depth start stop : Nat} (inside : stop ≤ tokens.length)
    (ordered : start ≤ stop) :
    statementsAt tokens limit depth start start stop =
      .ofParse (statementsOf limit depth (stretch tokens start stop)) :=
  statementsAt_eq inside (Nat.le_refl start) ordered (straight_stretch_self start)

end

/-- A buffer is parsed in place as its tokens are, without a breach. -/
theorem programAt_eq (limit : Nat) (tokens : List Token) :
    programAt tokens limit = .ofParse (programOf limit tokens) := by
  rw [programAt, statementsAt_start (Nat.le_refl _) (Nat.zero_le _), stretch_whole, programOf]

end Scriptlet
