import Mathlib.Data.List.Induction

/-! The checksum of log entries: of a block of bytes at once, and one byte after another. -/

namespace Tokuft

/-- What is known of a checksum while bytes are added to it. -/
structure X1764 where
  sum : UInt64
  input : UInt64
  nInputBytes : Nat
  deriving DecidableEq, Repr

namespace X1764

/-- Put bytes into a word, least significant byte first, from some byte of the word on. -/
def wordFrom (place : Nat) : List UInt8 → UInt64
  | [] => 0
  | byte :: bytes => (byte.toUInt64 <<< (8 * place).toUInt64) ||| wordFrom (place + 1) bytes

/-- A word, least significant byte first. -/
def word (bytes : List UInt8) : UInt64 := wordFrom 0 bytes

/-- Fold the halves of the sum. -/
def fold (sum : UInt64) : UInt32 :=
  ~~~(((sum &&& (0xFFFFFFFF : UInt64)) ^^^ (sum >>> (32 : UInt64))).toUInt32)

/-- Nothing has been added yet. -/
def init : X1764 := ⟨0, 0, 0⟩

/-- Add one byte. -/
def add (l : X1764) (byte : UInt8) : X1764 :=
  let input := l.input ||| (byte.toUInt64 <<< (8 * l.nInputBytes).toUInt64)
  if l.nInputBytes + 1 = 8 then ⟨l.sum * 17 + input, 0, 0⟩ else ⟨l.sum, input, l.nInputBytes + 1⟩

/-- The checksum of what was added. -/
def finish (l : X1764) : UInt32 := fold (if 0 < l.nInputBytes then l.sum * 17 + l.input else l.sum)

/-- Add words four at a time, each to a sum of its own. -/
def addBlocks : Nat → UInt64 × UInt64 × UInt64 × UInt64 → List UInt8 →
    UInt64 × UInt64 × UInt64 × UInt64
  | 0, sums, _ => sums
  | count + 1, (suma, sumb, sumc, sumd), buf =>
    addBlocks count
      (suma * (17 * 17 * 17 * 17) + word (buf.take 8),
        sumb * (17 * 17 * 17 * 17) + word ((buf.drop 8).take 8),
        sumc * (17 * 17 * 17 * 17) + word ((buf.drop 16).take 8),
        sumd * (17 * 17 * 17 * 17) + word ((buf.drop 24).take 8))
      (buf.drop 32)

/-- Add words one at a time. -/
def addWords : Nat → UInt64 → List UInt8 → UInt64
  | 0, sum, _ => sum
  | count + 1, sum, buf => addWords count (sum * 17 + word (buf.take 8)) (buf.drop 8)

/-- The checksum of a block of bytes. -/
def memory (buf : List UInt8) : UInt32 :=
  let blocks := buf.length / 32
  let (suma, sumb, sumc, sumd) := addBlocks blocks (0, 0, 0, 0) buf
  let sum := suma * 17 * 17 * 17 + sumb * 17 * 17 + sumc * 17 + sumd
  let buf := buf.drop (32 * blocks)
  let words := buf.length / 8
  let sum := addWords words sum buf
  let tail := buf.drop (8 * words)
  fold (if 0 < tail.length then sum * 17 + word tail else sum)

/-- Four sums are one sum whose words come four at a time. -/
theorem addBlocks_eq (count : Nat) (suma sumb sumc sumd : UInt64) (buf : List UInt8) :
    let (a, b, c, d) := addBlocks count (suma, sumb, sumc, sumd) buf
    a * 17 * 17 * 17 + b * 17 * 17 + c * 17 + d =
      addWords (4 * count) (suma * 17 * 17 * 17 + sumb * 17 * 17 + sumc * 17 + sumd) buf := by
  induction count generalizing suma sumb sumc sumd buf with
  | zero => rfl
  | succ count ih =>
    rw [show 4 * (count + 1) = 4 * count + 1 + 1 + 1 + 1 by omega]
    simp only [addBlocks, addWords, List.drop_drop]
    refine (ih _ _ _ _ _).trans ?_
    congr 1
    grind

/-- Words that are added one after another can be added in two parts. -/
theorem addWords_add (first second : Nat) (sum : UInt64) (buf : List UInt8) :
    addWords (first + second) sum buf =
      addWords second (addWords first sum buf) (buf.drop (8 * first)) := by
  induction first generalizing sum buf with
  | zero => rw [Nat.zero_add, Nat.mul_zero, List.drop_zero]; rfl
  | succ first ih =>
    rw [show first + 1 + second = first + second + 1 by omega]
    simp only [addWords]
    rw [ih, List.drop_drop]
    congr 2
    omega

/-- The checksum of a block is that of its words and of what is left. -/
theorem memory_eq (buf : List UInt8) :
    memory buf = fold (if buf.length % 8 = 0 then addWords (buf.length / 8) 0 buf
      else addWords (buf.length / 8) 0 buf * 17 + word (buf.drop (8 * (buf.length / 8)))) := by
  have blocks := addBlocks_eq (buf.length / 32) 0 0 0 0 buf
  simp only [memory]
  generalize addBlocks (buf.length / 32) (0, 0, 0, 0) buf = sums at blocks ⊢
  obtain ⟨suma, sumb, sumc, sumd⟩ := sums
  simp only at blocks ⊢
  -- The words of the blocks and the words after them are all the words.
  have words : (buf.drop (32 * (buf.length / 32))).length / 8 + 4 * (buf.length / 32) =
      buf.length / 8 := by
    rw [List.length_drop]
    omega
  have all : addWords (buf.length / 8) 0 buf =
      addWords ((buf.drop (32 * (buf.length / 32))).length / 8)
        (suma * 17 * 17 * 17 + sumb * 17 * 17 + sumc * 17 + sumd)
        (buf.drop (32 * (buf.length / 32))) := by
    rw [← words, Nat.add_comm, addWords_add, blocks]
    congr 2
    omega
  have tail : (buf.drop (32 * (buf.length / 32))).drop
      (8 * ((buf.drop (32 * (buf.length / 32))).length / 8)) = buf.drop (8 * (buf.length / 8)) := by
    rw [List.drop_drop]
    congr 1
    omega
  rw [tail, ← all]
  congr 1
  by_cases whole : buf.length % 8 = 0
  · rw [if_pos whole, if_neg]
    rw [List.length_drop]
    omega
  · rw [if_neg whole, if_pos]
    rw [List.length_drop]
    omega

/-- Bytes that follow others in a word are further up. -/
theorem wordFrom_append (place : Nat) (first second : List UInt8) :
    wordFrom place (first ++ second) =
      wordFrom place first ||| wordFrom (place + first.length) second := by
  induction first generalizing place with
  | nil => simp [wordFrom]
  | cons byte first ih =>
    simp only [List.cons_append, wordFrom, List.length_cons]
    rw [ih, UInt64.or_assoc, show place + 1 + first.length = place + (first.length + 1) by omega]

/-- One more byte in a word. -/
theorem word_snoc (bytes : List UInt8) (byte : UInt8) :
    word (bytes ++ [byte]) =
      word bytes ||| (byte.toUInt64 <<< (8 * bytes.length).toUInt64) := by
  rw [word, wordFrom_append, Nat.zero_add]
  simp [word, wordFrom]

/-- Words that are complete do not depend on what follows. -/
theorem addWords_append (count : Nat) (sum : UInt64) {buf : List UInt8}
    (complete : 8 * count ≤ buf.length) (more : List UInt8) :
    addWords count sum (buf ++ more) = addWords count sum buf := by
  induction count generalizing sum buf with
  | zero => rfl
  | succ count ih =>
    have enough : 8 ≤ buf.length := by omega
    simp only [addWords]
    rw [List.take_append_of_le_length enough, List.drop_append_of_le_length enough, ih]
    rw [List.length_drop]
    omega

/-- The complete words are in the sum, and the bytes after them are in the input. -/
structure Holds (l : X1764) (bytes : List UInt8) : Prop where
  sum : l.sum = addWords (bytes.length / 8) 0 bytes
  input : l.input = word (bytes.drop (8 * (bytes.length / 8)))
  nInputBytes : l.nInputBytes = bytes.length % 8

/-- Adding a byte keeps the sum and the input. -/
theorem Holds.add {l : X1764} {bytes : List UInt8} (holds : Holds l bytes) (byte : UInt8) :
    Holds (l.add byte) (bytes ++ [byte]) := by
  have tail : (bytes.drop (8 * (bytes.length / 8))).length = l.nInputBytes := by
    rw [List.length_drop, holds.nInputBytes]
    omega
  have input : l.input ||| (byte.toUInt64 <<< (8 * l.nInputBytes).toUInt64) =
      word (bytes.drop (8 * (bytes.length / 8)) ++ [byte]) := by
    rw [word_snoc, holds.input, tail]
  have length : (bytes ++ [byte]).length = bytes.length + 1 := by simp
  have count := holds.nInputBytes
  unfold X1764.add
  by_cases full : l.nInputBytes + 1 = 8
  · -- The byte completes a word.
    have words : (bytes ++ [byte]).length / 8 = bytes.length / 8 + 1 := by omega
    simp only [full, if_true]
    constructor
    · show l.sum * 17 + _ = _
      rw [input, words, addWords_add, addWords_append _ _ (by omega), ← holds.sum]
      have whole : (bytes ++ [byte]).drop (8 * (bytes.length / 8)) =
          bytes.drop (8 * (bytes.length / 8)) ++ [byte] :=
        List.drop_append_of_le_length (by omega)
      rw [whole]
      simp only [addWords]
      rw [List.take_of_length_le]
      rw [List.length_append, tail, List.length_singleton]
      omega
    · show 0 = _
      rw [words, List.drop_of_length_le (by omega)]
      rfl
    · show 0 = _
      omega
  · have words : (bytes ++ [byte]).length / 8 = bytes.length / 8 := by omega
    simp only [full, if_false]
    constructor
    · show l.sum = _
      rw [words, addWords_append _ _ (by omega), holds.sum]
    · show _ = _
      rw [input, words, List.drop_append_of_le_length (by omega)]
    · show l.nInputBytes + 1 = _
      omega

/-- What is kept gives the checksum of the bytes. -/
theorem Holds.finish {l : X1764} {bytes : List UInt8} (holds : Holds l bytes) :
    l.finish = memory bytes := by
  have count := holds.nInputBytes
  rw [memory_eq, X1764.finish, holds.sum, holds.input]
  by_cases whole : bytes.length % 8 = 0
  · rw [if_pos whole, if_neg (by omega)]
  · rw [if_neg whole, if_pos (by omega)]

/-- Adding the bytes one after another gives the checksum of the block. -/
theorem finish_foldl (bytes : List UInt8) : (bytes.foldl add init).finish = memory bytes := by
  -- The induction takes the last byte off.
  have holds : Holds (bytes.foldl add init) bytes := by
    induction bytes using List.reverseRecOn with
    | nil => exact ⟨rfl, rfl, rfl⟩
    | append_singleton bytes byte ih =>
      rw [List.foldl_append]
      exact ih.add byte
  exact holds.finish

end X1764

end Tokuft
