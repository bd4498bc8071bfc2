import Scriptlet.Console
import Scriptlet.Proofs.Lines

/-! Characters and their bytes. A line feed is a byte that is in no other character, so a stream of
bytes is cut into lines where the text is that it encodes. -/

namespace Scriptlet

/-! ## Bytes -/

theorem toList_bytes (bytes : ByteArray) : bytes.toList = bytes.data.toList := by
  -- The loop takes the bytes from the front and reverses them at the end.
  have loop (count index : Nat) (taken : List UInt8) (left : bytes.size - index = count) :
      ByteArray.toList.loop bytes index taken =
        taken.reverse ++ bytes.data.toList.drop index := by
    induction count generalizing index taken with
    | zero =>
        have none : bytes.data.toList.drop index = [] := by
          apply List.drop_eq_nil_of_le
          change bytes.size ≤ index
          omega
        rw [ByteArray.toList.loop, if_neg (by omega), none, List.append_nil]
    | succ count induction =>
        have inside : index < bytes.data.toList.length := by
          change index < bytes.size
          omega
        have here : bytes.get! index = bytes.data.toList[index] := by
          rw [Array.getElem_toList]
          exact getElem!_pos bytes.data index inside
        rw [ByteArray.toList.loop, if_pos (by omega), induction (index + 1) _ (by omega),
          List.drop_eq_getElem_cons inside, here, List.reverse_cons, List.append_assoc]
        rfl
  exact loop _ 0 [] rfl

/-- The bytes of characters, one after the other. -/
def bytesOf (characters : List Char) : List UInt8 :=
  characters.flatMap String.utf8EncodeChar

theorem bytesOf_append (first second : List Char) :
    bytesOf (first ++ second) = bytesOf first ++ bytesOf second :=
  List.flatMap_append

theorem bytesOf_cons (character : Char) (later : List Char) :
    bytesOf (character :: later) = String.utf8EncodeChar character ++ bytesOf later :=
  List.flatMap_cons

theorem toUTF8_eq (text : String) : text.toUTF8 = (bytesOf text.toList).toByteArray := by
  rw [String.toUTF8_eq_toByteArray, ← String.utf8Encode_toList]
  rfl

theorem toList_toUTF8 (text : String) : text.toUTF8.toList = bytesOf text.toList := by
  rw [toList_bytes, toUTF8_eq, List.toList_data_toByteArray]

/-! ## Line feeds -/

/-- Beyond the first 128 characters all bytes are large. -/
theorem le_of_mem_encode {character : Char} (beyond : 127 < character.val.toNat) :
    ∀ byte ∈ String.utf8EncodeChar character, 128 ≤ byte.toNat := by
  have large (value : Nat) (least : 128 ≤ value) (most : value < 256) :
      128 ≤ (UInt8.ofNat value).toNat := by
    rw [UInt8.toNat_ofNat']
    omega
  unfold String.utf8EncodeChar
  dsimp only
  rw [if_neg (by omega)]
  split_ifs
  all_goals
    simp only [List.forall_mem_cons, List.not_mem_nil, false_imp_iff, implies_true, and_true]
  · exact ⟨large _ (by omega) (by omega), large _ (by omega) (by omega)⟩
  · exact ⟨large _ (by omega) (by omega), large _ (by omega) (by omega),
      large _ (by omega) (by omega)⟩
  · exact ⟨large _ (by omega) (by omega), large _ (by omega) (by omega),
      large _ (by omega) (by omega), large _ (by omega) (by omega)⟩

theorem lineFeed_mem_encode_iff {character : Char} :
    10 ∈ String.utf8EncodeChar character ↔ character = '\n' := by
  constructor
  · intro member
    by_cases beyond : 127 < character.val.toNat
    · have large := le_of_mem_encode beyond 10 member
      exact absurd large (by decide)
    · rw [String.utf8EncodeChar, if_pos (by omega), List.mem_singleton] at member
      have same := congrArg UInt8.toNat member
      rw [UInt8.toNat_ofNat'] at same
      have code : (10 : UInt8).toNat = 10 := rfl
      apply Char.ext
      apply UInt32.toNat_inj.mp
      change character.val.toNat = 10
      omega
  · rintro rfl
    decide

theorem lineFeed_mem_bytesOf_iff {characters : List Char} :
    10 ∈ bytesOf characters ↔ '\n' ∈ characters := by
  rw [bytesOf, List.mem_flatMap]
  constructor
  · rintro ⟨character, member, inside⟩
    rwa [← lineFeed_mem_encode_iff.mp inside]
  · intro member
    exact ⟨'\n', member, by decide⟩

/-! ## Lines -/

/-- A property of items that are cut into pieces follows from what the first piece adds to it. -/
theorem splitAfter_induction (endsPiece : α → Bool) {motive : List α → Prop}
    (nothing : motive [])
    (last : ∀ items, items ≠ [] → (∀ item ∈ items, endsPiece item = false) → motive items)
    (more : ∀ before closing later, (∀ item ∈ before, endsPiece item = false) → endsPiece closing →
      motive later → motive (before ++ closing :: later))
    (items : List α) : motive items := by
  have inside : ∀ item ∈ items.takeWhile (!endsPiece ·), endsPiece item = false := by
    intro item member
    simpa using List.mem_takeWhile_imp member
  have whole := List.takeWhile_append_dropWhile (p := (!endsPiece ·)) (l := items)
  cases found : items.dropWhile (!endsPiece ·) with
  | nil =>
      rw [found, List.append_nil] at whole
      rw [whole] at inside
      by_cases empty : items = []
      · exact empty ▸ nothing
      · exact last items empty inside
  | cons closing later =>
      have ends := List.head?_dropWhile_not (!endsPiece ·) items
      rw [found] at whole ends
      rw [← whole]
      exact more _ closing later inside (by simpa using ends)
        (splitAfter_induction endsPiece nothing last more later)
termination_by items.length
decreasing_by exact length_lt_of_dropWhile_eq_cons found

/-- Only the last item of a piece can end it. -/
theorem not_ends_of_mem_dropLast {endsPiece : α → Bool} {items piece : List α}
    (member : piece ∈ splitAfter endsPiece items) :
    ∀ item ∈ piece.dropLast, endsPiece item = false := by
  induction items using splitAfter_induction endsPiece with
  | nothing =>
      rw [splitAfter_nil] at member
      cases member
  | last items filled inside =>
      rw [splitAfter_piece filled inside, List.mem_singleton] at member
      rw [member]
      exact fun item within => inside item (List.mem_of_mem_dropLast within)
  | more before closing later inside ends induction =>
      rw [splitAfter_append_cons inside ends, List.mem_cons] at member
      rcases member with rfl | member
      · rwa [List.dropLast_concat]
      · exact induction member

theorem splitAfter_eq_nil_iff {endsPiece : α → Bool} {items : List α} :
    splitAfter endsPiece items = [] ↔ items = [] := by
  induction items using splitAfter_induction endsPiece with
  | nothing => simp [splitAfter_nil]
  | last items filled inside => simp [splitAfter_piece filled inside, filled]
  | more before closing later inside ends => simp [splitAfter_append_cons inside ends]

/-- Every piece but the last ends with an item that ends it, and the last one ends with the last of
all items. -/
theorem getLast?_piece {endsPiece : α → Bool} {items piece : List α} {index : Nat}
    (found : (splitAfter endsPiece items)[index]? = some piece) :
    (index + 1 = (splitAfter endsPiece items).length → piece.getLast? = items.getLast?) ∧
      (index + 1 ≠ (splitAfter endsPiece items).length →
        ∃ closing, piece.getLast? = some closing ∧ endsPiece closing) := by
  induction items using splitAfter_induction endsPiece generalizing index with
  | nothing =>
      rw [splitAfter_nil] at found
      cases found
  | last items filled inside =>
      rw [splitAfter_piece filled inside] at found ⊢
      cases index with
      | zero =>
          cases found
          exact ⟨fun _ => rfl, fun more => absurd rfl more⟩
      | succ => cases found
  | more before closing later inside ends induction =>
      rw [splitAfter_append_cons inside ends] at found ⊢
      cases index with
      | zero =>
          cases found
          refine ⟨fun only => ?_, fun _ => ⟨closing, by simp, ends⟩⟩
          rw [List.length_cons] at only
          have nothing : splitAfter endsPiece later = [] :=
            List.eq_nil_of_length_eq_zero (by omega)
          rw [splitAfter_eq_nil_iff.mp nothing]
      | succ index =>
          have rest := induction found
          have filled : later ≠ [] := by
            rintro rfl
            rw [List.getElem?_cons_succ, splitAfter_nil] at found
            cases found
          rw [List.length_cons, ne_eq, Nat.add_right_cancel_iff, List.getLast?_append_cons,
            List.getLast?_cons_of_ne_nil filled]
          exact rest

/-- Bytes are cut into lines where the characters are that they encode. -/
theorem splitAfter_bytesOf (characters : List Char) :
    splitAfter (· == 10) (bytesOf characters) =
      (splitAfter (· == '\n') characters).map bytesOf := by
  have plain {line : List Char} (inside : ∀ character ∈ line, (character == '\n') = false) :
      ∀ byte ∈ bytesOf line, (byte == 10) = false := by
    intro byte member
    rw [beq_eq_false_iff_ne]
    rintro rfl
    have feed := inside '\n' (lineFeed_mem_bytesOf_iff.mp member)
    simp at feed
  induction characters using splitAfter_induction (· == '\n') with
  | nothing => simp [bytesOf, splitAfter_nil]
  | last line filled inside =>
      have some : bytesOf line ≠ [] := by
        cases line with
        | nil => exact absurd rfl filled
        | cons first later => simp [bytesOf_cons, String.utf8EncodeChar_ne_nil]
      rw [splitAfter_piece some (plain inside), splitAfter_piece filled inside]
      rfl
  | more line feed later inside ends induction =>
      cases beq_iff_eq.mp ends
      rw [bytesOf_append, bytesOf_cons]
      change splitAfter _ (_ ++ 10 :: bytesOf later) = _
      rw [splitAfter_append_cons (plain inside) rfl, splitAfter_append_cons inside rfl,
        induction, List.map_cons, bytesOf_append]
      rfl

theorem fromUTF8?_bytesOf (characters : List Char) :
    String.fromUTF8? ⟨(bytesOf characters).toArray⟩ = some (String.ofList characters) := by
  have same : (⟨(bytesOf characters).toArray⟩ : ByteArray) =
      (String.ofList characters).toByteArray := by
    rw [String.toByteArray_ofList]
    exact ByteArray.ext List.data_toByteArray.symm
  rw [same, String.fromUTF8?, dif_pos (String.ofList characters).isValidUTF8]
  rfl

/-- The lines of an input stream that is a text are the lines of the text. -/
theorem linesOfInput_toUTF8 (stream : String) :
    Console.linesOfInput stream.toUTF8 =
      (splitAfter (· == '\n') stream.toList).map fun line => some (String.ofList line) := by
  rw [Console.linesOfInput, toList_toUTF8, splitAfter_bytesOf, List.map_map]
  exact List.map_congr_left fun line _ => fromUTF8?_bytesOf line

/-- A line of an input stream has no line feed in front of its last character. -/
theorem lineFeed_last_of_mem_linesOfInput {bytes : ByteArray} {text : String}
    (member : some text ∈ Console.linesOfInput bytes) : '\n' ∉ text.toList.dropLast := by
  rcases List.mem_map.mp member with ⟨line, within, decoded⟩
  have same : bytesOf text.toList = line := by
    rw [String.fromUTF8?] at decoded
    split at decoded
    · cases decoded
      rw [← toList_toUTF8, toList_bytes]
      rfl
    · cases decoded
  intro feed
  rcases List.eq_nil_or_concat text.toList with empty | ⟨before, last, whole⟩
  · rw [empty] at feed
    cases feed
  · rw [whole, List.concat_eq_append, List.dropLast_concat] at feed
    rw [whole, List.concat_eq_append, bytesOf_append] at same
    have large : bytesOf [last] ≠ [] := by
      simp [bytesOf_cons, String.utf8EncodeChar_ne_nil]
    have inside : 10 ∈ line.dropLast := by
      rw [← same, List.dropLast_append_of_ne_nil large]
      exact List.mem_append_left _ (lineFeed_mem_bytesOf_iff.mpr feed)
    have plain := not_ends_of_mem_dropLast within 10 inside
    cases plain

end Scriptlet
