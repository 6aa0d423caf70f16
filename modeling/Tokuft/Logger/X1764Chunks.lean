import Tokuft.Logger.X1764

/-! The checksum of chunks that are added one after another, against that of the whole block. -/

namespace Tokuft
namespace X1764

/-- Add words one at a time, and then what is left of the block, with nothing unrolled. -/
def memorySimple (buf : List UInt8) : UInt32 :=
  let words := buf.length / 8
  let c := addWords words 0 buf
  let tail := buf.drop (8 * words)
  fold (if 0 < tail.length then c * 17 + word tail else c)

/-- Add words that each lie across two words of the whole, while input bytes are carried along. -/
def addShifted : Nat → X1764 → List UInt8 → X1764
  | 0, l, _ => l
  | count + 1, l, cbuf =>
    let thisv := word (cbuf.take 8)
    let input := l.input ||| (thisv <<< (8 * l.nInputBytes).toUInt64)
    -- The number of input bytes remains unchanged.
    addShifted count ⟨l.sum * 17 + input, thisv >>> (8 * (8 - l.nInputBytes)).toUInt64,
      l.nInputBytes⟩ (cbuf.drop 8)

/-- Add half a word. -/
def addHalf (l : X1764) (cbuf : List UInt8) : X1764 :=
  let thisv := word (cbuf.take 4)
  let input := l.input ||| (thisv <<< (8 * l.nInputBytes).toUInt64)
  if l.nInputBytes < 4 then ⟨l.sum, input, l.nInputBytes + 4⟩
  else ⟨l.sum * 17 + input, thisv >>> (8 * (8 - l.nInputBytes)).toUInt64, l.nInputBytes - 4⟩

/-- Fill the input with bytes until it is a word or no byte is left. -/
def fillInput : X1764 → List UInt8 → X1764 × List UInt8
  | l, [] => (l, [])
  | l, byte :: cbuf =>
    if l.nInputBytes < 8 then
      fillInput ⟨l.sum, l.input ||| (byte.toUInt64 <<< (8 * l.nInputBytes).toUInt64),
        l.nInputBytes + 1⟩ cbuf
    else (l, byte :: cbuf)

/-- Add whole words to a sum, and keep the bytes after them as input. -/
def addAligned (sum : UInt64) (cbuf : List UInt8) : X1764 :=
  let words := cbuf.length / 8
  let tail := cbuf.drop (8 * words)
  ⟨addWords words sum cbuf, word tail, tail.length⟩

/-- Add a chunk of bytes. -/
def addBytes (l : X1764) : List UInt8 → X1764
  -- Short inputs are a special case.
  | [byte] => l.add byte
  | [first, second] =>
    let thisv := word [first, second]
    let input := l.input ||| (thisv <<< (8 * l.nInputBytes).toUInt64)
    if l.nInputBytes = 7 then ⟨l.sum * 17 + input, thisv >>> (8 : Nat).toUInt64, 1⟩
    else if l.nInputBytes = 6 then ⟨l.sum * 17 + input, 0, 0⟩
    else ⟨l.sum, input, l.nInputBytes + 2⟩
  | cbuf =>
    if l.nInputBytes ≠ 0 then
      let words := cbuf.length / 8
      let l := addShifted words l cbuf
      let cbuf := cbuf.drop (8 * words)
      let (l, cbuf) := if 4 ≤ cbuf.length then (l.addHalf cbuf, cbuf.drop 4) else (l, cbuf)
      let (l, cbuf) := l.fillInput cbuf
      -- Every byte is taken when the input is still no word.
      if l.nInputBytes < 8 then l else addAligned (l.sum * 17 + l.input) cbuf
    else addAligned l.sum cbuf

variable {count : Nat} {bytes : List UInt8}

/-- The bits of a word that is shifted up. -/
theorem getLsbD_shiftLeft (x : UInt64) (few : count < 64) (bit : Nat) :
    (x <<< count.toUInt64).toBitVec.getLsbD bit =
      (decide (bit < 64) && (decide (count ≤ bit) && x.toBitVec.getLsbD (bit - count))) := by
  -- The machine takes the count modulo the width, which changes nothing below it.
  have toNat : (count.toUInt64.toBitVec % 64).toNat = count := by
    simp [BitVec.toNat_umod]
    omega
  rw [UInt64.toBitVec_shiftLeft, BitVec.shiftLeft_eq', toNat, BitVec.getLsbD_shiftLeft]
  by_cases small : bit < count
  · simp [small, Nat.not_le.mpr small]
  · simp [small, Nat.not_lt.mp small]

/-- The bits of a word that is shifted down. -/
theorem getLsbD_shiftRight (x : UInt64) (few : count < 64) (bit : Nat) :
    (x >>> count.toUInt64).toBitVec.getLsbD bit = x.toBitVec.getLsbD (count + bit) := by
  have toNat : (count.toUInt64.toBitVec % 64).toNat = count := by
    simp [BitVec.toNat_umod]
    omega
  rw [UInt64.toBitVec_shiftRight, BitVec.ushiftRight_eq', toNat, BitVec.getLsbD_ushiftRight]

/-- A byte has the same bits as a word. -/
theorem getLsbD_toUInt64 (byte : UInt8) (bit : Nat) :
    byte.toUInt64.toBitVec.getLsbD bit = byte.toBitVec.getLsbD bit := by
  rw [UInt8.toBitVec_toUInt64, BitVec.getLsbD_setWidth]
  by_cases inside : bit < 64
  · simp [inside]
  · -- Past the width neither has a bit.
    simp [inside, BitVec.getLsbD_of_ge byte.toBitVec bit (by omega)]

/-- A bit of a word is a bit of the byte it lies in. -/
theorem getLsbD_wordFrom {place : Nat} (fits : place + bytes.length ≤ 8) {bit : Nat}
    (inside : bit < 64) :
    (wordFrom place bytes).toBitVec.getLsbD bit =
      (decide (place ≤ bit / 8) &&
        (bytes.getD (bit / 8 - place) 0).toBitVec.getLsbD (bit % 8)) := by
  -- The induction is on the bytes; the bit lies in the first of them, below it or above it.
  induction bytes generalizing place with
  | nil => simp [wordFrom]
  | cons byte bytes ih =>
    have room : place + 1 + bytes.length ≤ 8 := by
      rw [List.length_cons] at fits
      omega
    rw [wordFrom, UInt64.toBitVec_or, BitVec.getLsbD_or, ih room,
      getLsbD_shiftLeft _ (by omega), getLsbD_toUInt64]
    rcases Nat.lt_trichotomy (bit / 8) place with below | here | above
    · -- Neither the byte nor those after it reach down to the bit.
      have under : ¬ 8 * place ≤ bit := by omega
      have before : ¬ place + 1 ≤ bit / 8 := by omega
      have outside : ¬ place ≤ bit / 8 := by omega
      simp [under, before, outside]
    · -- The bit is in the byte, and those after it are above.
      have reached : 8 * place ≤ bit := by omega
      have offset : bit - 8 * place = bit % 8 := by omega
      have later : ¬ place + 1 ≤ place := by omega
      simp [reached, offset, later, here, inside]
    · -- The byte ends below the bit.
      have reached : 8 * place ≤ bit := by omega
      have past : 8 ≤ bit - 8 * place := by omega
      have later : place + 1 ≤ bit / 8 := by omega
      have next : bit / 8 - place = bit / 8 - (place + 1) + 1 := by omega
      have started : place ≤ bit / 8 := by omega
      simp only [BitVec.getLsbD_of_ge byte.toBitVec _ past, reached, later, next, started]
      simp

/-- Words with the same bits are the same. -/
theorem ext_bits {first second : UInt64}
    (same : ∀ bit < 64, first.toBitVec.getLsbD bit = second.toBitVec.getLsbD bit) :
    first = second :=
  UInt64.toBitVec_inj.mp (BitVec.eq_of_getLsbD_eq same)

/-- Bytes shifted into a word that holds `place` bytes already. -/
theorem word_shiftLeft (short : bytes.length ≤ 8) {place : Nat} (fits : place < 8) :
    word bytes <<< (8 * place).toUInt64 = wordFrom place (bytes.take (8 - place)) := by
  refine ext_bits fun bit inside => ?_
  rw [getLsbD_shiftLeft _ (by omega), getLsbD_wordFrom (by rw [List.length_take]; omega) inside]
  by_cases above : 8 * place ≤ bit
  · -- The bit is that of a byte of the word, one that is not cut off.
    have started : place ≤ bit / 8 := by omega
    have byte : (bit - 8 * place) / 8 = bit / 8 - place := by omega
    have offset : (bit - 8 * place) % 8 = bit % 8 := by omega
    have kept : (bytes.take (8 - place)).getD (bit / 8 - place) 0 =
        bytes.getD (bit / 8 - place) 0 := by
      rw [List.getD_eq_getElem?_getD, List.getD_eq_getElem?_getD,
        List.getElem?_take_of_lt (by omega)]
    rw [word, getLsbD_wordFrom (by omega) (by omega), byte, offset, kept]
    simp [inside, above, started]
  · have before : ¬ place ≤ bit / 8 := by omega
    simp [above, before]

/-- The bytes of a word that found no room in another. -/
theorem word_shiftRight (short : bytes.length ≤ 8) (few : count < 8) :
    word bytes >>> (8 * count).toUInt64 = word (bytes.drop count) := by
  refine ext_bits fun bit inside => ?_
  rw [getLsbD_shiftRight _ (by omega), word, word,
    getLsbD_wordFrom (by rw [List.length_drop]; omega) inside]
  have byte : (8 * count + bit) / 8 = count + bit / 8 := by omega
  have offset : (8 * count + bit) % 8 = bit % 8 := by omega
  by_cases within : 8 * count + bit < 64
  · rw [getLsbD_wordFrom (by omega) within, byte, offset]
    simp [List.getD_eq_getElem?_getD, List.getElem?_drop]
  · -- Past the word there is no byte either.
    have gone : (bytes.drop count)[bit / 8]? = none := by
      rw [List.getElem?_eq_none]
      rw [List.length_drop]
      omega
    rw [BitVec.getLsbD_of_ge _ _ (by omega)]
    simp [List.getD_eq_getElem?_getD, gone]

/-- Bytes that follow others in a word go above them. -/
theorem word_append (first second : List UInt8) :
    word (first ++ second) = word first ||| wordFrom first.length second := by
  -- The place of the second part is the length of the first.
  rw [word, wordFrom_append, Nat.zero_add, word]

/-- The plain checksum is the one that is unrolled. -/
theorem memorySimple_eq (buf : List UInt8) : memorySimple buf = memory buf := by
  -- Both are the sum of the words, with one more word for the bytes that are left.
  rw [memory_eq]
  simp only [memorySimple, List.length_drop]
  congr 1
  by_cases whole : buf.length % 8 = 0
  · rw [if_neg (by omega), if_pos whole]
  · rw [if_pos (by omega), if_neg whole]

namespace Holds

variable {l : X1764}

section

variable (holds : Holds l bytes)
include holds

/-- Less than a word of input is kept. -/
theorem few : l.nInputBytes < 8 := by
  -- The number is a remainder.
  rw [holds.nInputBytes]
  omega

/-- The bytes that are kept as input. -/
theorem length_tail :
    (bytes.drop (8 * (bytes.length / 8))).length = l.nInputBytes := by
  rw [List.length_drop, holds.nInputBytes]
  omega

/-- Bytes that do not complete a word join the input. -/
theorem join (piece : List UInt8) (fits : l.nInputBytes + piece.length < 8) :
    Holds ⟨l.sum, l.input ||| (word piece <<< (8 * l.nInputBytes).toUInt64),
      l.nInputBytes + piece.length⟩ (bytes ++ piece) := by
  have count := holds.nInputBytes
  have words : (bytes ++ piece).length / 8 = bytes.length / 8 := by
    rw [List.length_append]
    omega
  constructor
  · -- No word is completed, so the sum stays.
    show l.sum = _
    rw [words, addWords_append _ _ (by omega), holds.sum]
  · -- The piece goes above the bytes that are there.
    show _ = _
    rw [words, List.drop_append_of_le_length (by omega), word_append, holds.length_tail,
      ← holds.input, word_shiftLeft (by omega) holds.few, List.take_of_length_le (by omega)]
  · show l.nInputBytes + piece.length = _
    rw [List.length_append]
    omega

/-- Bytes that complete a word go into the sum, and those after them become the input. -/
theorem spill (piece : List UInt8) (short : piece.length ≤ 8) (carried : l.nInputBytes ≠ 0)
    (full : 8 ≤ l.nInputBytes + piece.length) :
    Holds ⟨l.sum * 17 + (l.input ||| (word piece <<< (8 * l.nInputBytes).toUInt64)),
      word piece >>> (8 * (8 - l.nInputBytes)).toUInt64,
      l.nInputBytes + piece.length - 8⟩ (bytes ++ piece) := by
  have count := holds.nInputBytes
  have tail := holds.length_tail
  have words : (bytes ++ piece).length / 8 = bytes.length / 8 + 1 := by
    rw [List.length_append]
    omega
  have cut : (bytes ++ piece).drop (8 * (bytes.length / 8)) =
      bytes.drop (8 * (bytes.length / 8)) ++ piece :=
    List.drop_append_of_le_length (by omega)
  constructor
  · -- The word that is completed has the input below and the head of the piece above.
    show l.sum * 17 + _ = _
    rw [words, addWords_add, addWords_append _ _ (by omega), ← holds.sum, cut]
    simp only [addWords]
    rw [List.take_append, tail, List.take_of_length_le (by omega), word_append, tail,
      word_shiftLeft short holds.few, ← holds.input]
  · -- What found no room is the rest of the piece.
    show _ = _
    rw [words, Nat.mul_add, Nat.mul_one, ← List.drop_drop, cut, word_shiftRight short (by omega),
      List.drop_append, tail, List.drop_of_length_le (by omega : _ ≤ 8), List.nil_append]
  · show l.nInputBytes + piece.length - 8 = _
    rw [List.length_append]
    omega

/-- Words across two words keep the sum and the input. -/
theorem addShifted (carried : l.nInputBytes ≠ 0) (count : Nat) (cbuf : List UInt8)
    (enough : 8 * count ≤ cbuf.length) :
    Holds (addShifted count l cbuf) (bytes ++ cbuf.take (8 * count)) ∧
      (X1764.addShifted count l cbuf).nInputBytes = l.nInputBytes := by
  -- Each round is one piece of eight bytes, which spills as many bytes as were carried.
  induction count generalizing l bytes cbuf with
  | zero =>
    rw [Nat.mul_zero, List.take_zero, List.append_nil]
    exact ⟨holds, rfl⟩
  | succ count ih =>
    have eight : (cbuf.take 8).length = 8 := by
      rw [List.length_take]
      omega
    have step := holds.spill (cbuf.take 8) (by omega) carried (by omega)
    rw [eight, Nat.add_sub_cancel] at step
    have rest := ih step carried (cbuf.drop 8) (by rw [List.length_drop]; omega)
    rw [List.append_assoc, ← List.take_add, show 8 + 8 * count = 8 * (count + 1) by omega] at rest
    exact rest

/-- Half a word keeps the sum and the input. -/
theorem addHalf {cbuf : List UInt8} (enough : 4 ≤ cbuf.length) :
    Holds (l.addHalf cbuf) (bytes ++ cbuf.take 4) := by
  have four : (cbuf.take 4).length = 4 := by
    rw [List.length_take]
    omega
  unfold X1764.addHalf
  by_cases low : l.nInputBytes < 4
  · -- There is room for four more bytes.
    have step := holds.join (cbuf.take 4) (by omega)
    rw [four] at step
    simpa only [low, if_true] using step
  · -- The four bytes complete a word.
    have step := holds.spill (cbuf.take 4) (by omega) (by omega) (by omega)
    rw [four, show l.nInputBytes + 4 - 8 = l.nInputBytes - 4 by omega] at step
    simpa only [low, if_false] using step

/-- Whole words after whole words keep the sum, and what follows is the input. -/
theorem addAligned (empty : l.nInputBytes = 0) (cbuf : List UInt8) :
    Holds (addAligned l.sum cbuf) (bytes ++ cbuf) := by
  -- The words in front are whole, so that the new ones are words of the whole input.
  have count := holds.nInputBytes
  have words : (bytes ++ cbuf).length / 8 = bytes.length / 8 + cbuf.length / 8 := by
    rw [List.length_append]
    omega
  have cut : (bytes ++ cbuf).drop (8 * (bytes.length / 8)) = cbuf := by
    rw [show 8 * (bytes.length / 8) = bytes.length by omega, List.drop_left]
  constructor
  · show addWords _ _ _ = _
    rw [words, addWords_add, addWords_append _ _ (by omega), ← holds.sum, cut]
  · show word _ = _
    rw [words, Nat.mul_add, ← List.drop_drop, cut]
  · show (cbuf.drop _).length = _
    rw [List.length_drop, List.length_append]
    omega

end

end Holds

/-- Filling the input takes as many bytes as there is room for. -/
theorem fillInput_eq (l : X1764) (cbuf : List UInt8) :
    l.fillInput cbuf =
      (⟨l.sum, l.input ||| wordFrom l.nInputBytes (cbuf.take (8 - l.nInputBytes)),
        l.nInputBytes + (cbuf.take (8 - l.nInputBytes)).length⟩,
        cbuf.drop (8 - l.nInputBytes)) := by
  -- The induction is on the bytes, and each round uses up one place.
  induction cbuf generalizing l with
  | nil => simp [fillInput, wordFrom]
  | cons byte cbuf ih =>
    rw [fillInput]
    by_cases room : l.nInputBytes < 8
    · have places : 8 - l.nInputBytes = 8 - (l.nInputBytes + 1) + 1 := by omega
      rw [if_pos room, ih, places]
      simp only [List.take_succ_cons, List.drop_succ_cons, wordFrom, List.length_cons,
        UInt64.or_assoc]
      congr 2
      omega
    · rw [if_neg room, show 8 - l.nInputBytes = 0 by omega]
      simp [wordFrom]

section

variable {l : X1764} (holds : Holds l bytes) (cbuf : List UInt8)
include holds cbuf

/-- Filling the input keeps the sum and the input when the input stays less than a word. -/
theorem Holds.fillInput (short : cbuf.length < 8) :
    Holds (if (l.fillInput cbuf).1.nInputBytes < 8 then (l.fillInput cbuf).1
      else X1764.addAligned ((l.fillInput cbuf).1.sum * 17 + (l.fillInput cbuf).1.input)
        (l.fillInput cbuf).2) (bytes ++ cbuf) := by
  have room := holds.few
  have taken : (cbuf.take (8 - l.nInputBytes)).length = min (8 - l.nInputBytes) cbuf.length :=
    List.length_take
  -- The bytes that are taken are a piece shifted above the input.
  have shifted : word (cbuf.take (8 - l.nInputBytes)) <<< (8 * l.nInputBytes).toUInt64 =
      wordFrom l.nInputBytes (cbuf.take (8 - l.nInputBytes)) := by
    rw [word_shiftLeft (by omega) room, List.take_take, Nat.min_self]
  rw [fillInput_eq]
  by_cases fits : l.nInputBytes + cbuf.length < 8
  · -- All bytes join the input.
    have all : cbuf.take (8 - l.nInputBytes) = cbuf := List.take_of_length_le (by omega)
    rw [all] at shifted ⊢
    rw [if_pos fits, ← shifted]
    exact holds.join _ fits
  · -- The head of the bytes completes a word, and nothing of it spills.
    have step := holds.spill (cbuf.take (8 - l.nInputBytes)) (by omega) (by omega)
      (by omega)
    have full : l.nInputBytes + (cbuf.take (8 - l.nInputBytes)).length = 8 := by omega
    rw [shifted, full] at step
    have after := step.addAligned rfl (cbuf.drop (8 - l.nInputBytes))
    rw [List.append_assoc, List.take_append_drop] at after
    rw [full]
    exact after

/-- Adding a chunk keeps the sum and the input. -/
theorem Holds.addBytes :
    Holds (l.addBytes cbuf) (bytes ++ cbuf) := by
  have few := holds.few
  unfold X1764.addBytes
  split
  · exact holds.add _
  · -- Two bytes spill one byte, spill none, or join the input.
    rename_i first second
    simp only
    by_cases seven : l.nInputBytes = 7
    · have step := holds.spill [first, second] (by simp) (by omega)
        (by simp [seven])
      rw [if_pos seven]
      simpa [seven] using step
    · rw [if_neg seven]
      by_cases six : l.nInputBytes = 6
      · have step := holds.spill [first, second] (by simp) (by omega)
          (by simp [six])
        rw [word_shiftRight (by simp) (by omega), List.drop_of_length_le (by simp [six])] at step
        rw [if_pos six]
        simpa [six, word, wordFrom] using step
      · rw [if_neg six]
        exact holds.join [first, second] (by simp; omega)
  · by_cases empty : l.nInputBytes = 0
    · rw [if_neg (not_not.mpr empty)]
      exact holds.addAligned empty _
    · -- First whole words across two words, then half a word if there is one, then single bytes.
      rw [if_pos empty]
      simp only
      obtain ⟨shifted, same⟩ := holds.addShifted empty (cbuf.length / 8) cbuf
        (by omega)
      have rest : (cbuf.drop (8 * (cbuf.length / 8))).length < 8 := by
        rw [List.length_drop]
        omega
      by_cases half : 4 ≤ (cbuf.drop (8 * (cbuf.length / 8))).length
      · have filled := (shifted.addHalf half).fillInput
          ((cbuf.drop (8 * (cbuf.length / 8))).drop 4) (by rw [List.length_drop]; omega)
        rw [List.append_assoc, List.append_assoc, List.take_append_drop,
          List.take_append_drop] at filled
        simpa only [half, if_true] using filled
      · have filled := shifted.fillInput _ rest
        rw [List.append_assoc, List.take_append_drop] at filled
        simpa only [half, if_false] using filled

end

/-- Chunks that are added one after another keep the sum and the input. -/
theorem holds_chunks (chunks : List (List UInt8)) :
    Holds (chunks.foldl addBytes init) chunks.flatten := by
  -- The induction takes the last chunk off.
  induction chunks using List.reverseRecOn with
  | nil => exact ⟨rfl, rfl, rfl⟩
  | append_singleton chunks chunk ih =>
    rw [List.foldl_append, List.flatten_append, List.flatten_singleton]
    exact ih.addBytes chunk

/-- However a string is cut into chunks, adding the chunks gives its checksum, which is also the
plain one. -/
theorem checksums_agree (chunks : List (List UInt8)) :
    (chunks.foldl addBytes init).finish = memory chunks.flatten ∧
      memory chunks.flatten = memorySimple chunks.flatten :=
  ⟨(holds_chunks chunks).finish, (memorySimple_eq _).symm⟩

end X1764
end Tokuft
