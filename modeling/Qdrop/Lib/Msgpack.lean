import Mathlib.Algebra.BigOperators.Group.List.Basic
import Mathlib.Algebra.GroupWithZero.Nat

/-!
# Writing MessagePack

One writer for each kind of value: a marker with the length of what follows, in the shortest form that holds it, and
then the bytes.  A record is a map from its field names.  Beside each writer stands the number of bytes it writes, as a
function of the length of its argument alone.
-/

namespace Lib.Msgpack

/-- The last `k` bytes of a number, the most significant one first. -/
def bigEndian : Nat → Nat → List UInt8
  | 0, _ => []
  | k + 1, n => UInt8.ofNat (n / 256 ^ k) :: bigEndian k n

@[simp] theorem length_bigEndian (k n : Nat) : (bigEndian k n).length = k := by
  induction k with
  | zero => rfl
  | succ k ih => rw [bigEndian, List.length_cons, ih]

def bool (b : Bool) : List UInt8 := [if b then 0xc3 else 0xc2]

@[simp] theorem length_bool (b : Bool) : (bool b).length = 1 := rfl

/-- An unsigned integer. -/
def uint (n : Nat) : List UInt8 :=
  if n < 128 then [UInt8.ofNat n]
  else if n < 2 ^ 8 then 0xcc :: bigEndian 1 n
  else if n < 2 ^ 16 then 0xcd :: bigEndian 2 n
  else if n < 2 ^ 32 then 0xce :: bigEndian 4 n
  else 0xcf :: bigEndian 8 n

def uintSize (n : Nat) : Nat :=
  if n < 128 then 1 else if n < 2 ^ 8 then 2 else if n < 2 ^ 16 then 3 else if n < 2 ^ 32 then 5 else 9

@[simp] theorem length_uint (n : Nat) : (uint n).length = uintSize n := by
  unfold uint uintSize
  split
  · rfl
  · split
    · simp
    · split
      · simp
      · split <;> simp

theorem uintSize_le (n : Nat) : uintSize n ≤ 9 := by
  unfold uintSize
  split
  · omega
  · split
    · omega
    · split
      · omega
      · split <;> omega

/-- The bytes of a string. -/
def utf8 (s : String) : List UInt8 := s.toUTF8.data.toList

def strHeader (len : Nat) : List UInt8 :=
  if len < 32 then [UInt8.ofNat (0xa0 + len)]
  else if len < 2 ^ 8 then 0xd9 :: bigEndian 1 len
  else if len < 2 ^ 16 then 0xda :: bigEndian 2 len
  else 0xdb :: bigEndian 4 len

def str (s : String) : List UInt8 := strHeader (utf8 s).length ++ utf8 s

/-- The bytes of a string of `len` bytes. -/
def strSize (len : Nat) : Nat :=
  (if len < 32 then 1 else if len < 2 ^ 8 then 2 else if len < 2 ^ 16 then 3 else 5) + len

@[simp] theorem length_str (s : String) : (str s).length = strSize (utf8 s).length := by
  rw [str, List.length_append, strSize, strHeader]
  split
  · rfl
  · split
    · simp
    · split <;> simp

theorem strSize_le (len : Nat) : strSize len ≤ 5 + len := by
  unfold strSize
  split
  · omega
  · split
    · omega
    · split <;> omega

def binHeader (len : Nat) : List UInt8 :=
  if len < 2 ^ 8 then 0xc4 :: bigEndian 1 len
  else if len < 2 ^ 16 then 0xc5 :: bigEndian 2 len
  else 0xc6 :: bigEndian 4 len

def bin (data : List UInt8) : List UInt8 := binHeader data.length ++ data

/-- The bytes of a buffer of `len` bytes. -/
def binSize (len : Nat) : Nat := (if len < 2 ^ 8 then 2 else if len < 2 ^ 16 then 3 else 5) + len

@[simp] theorem length_bin (data : List UInt8) : (bin data).length = binSize data.length := by
  rw [bin, List.length_append, binSize, binHeader]
  split
  · simp
  · split <;> simp

theorem binSize_le (len : Nat) : binSize len ≤ 5 + len := by
  unfold binSize
  split
  · omega
  · split <;> omega

/-- The marker of a sequence of `len` items; `fix` is the one-byte form. -/
def seqHeader (fix : Nat) (short long : UInt8) (len : Nat) : List UInt8 :=
  if len < 16 then [UInt8.ofNat (fix + len)]
  else if len < 2 ^ 16 then short :: bigEndian 2 len
  else long :: bigEndian 4 len

def seqHeaderSize (len : Nat) : Nat := if len < 16 then 1 else if len < 2 ^ 16 then 3 else 5

@[simp] theorem length_seqHeader (fix : Nat) (short long : UInt8) (len : Nat) :
    (seqHeader fix short long len).length = seqHeaderSize len := by
  unfold seqHeader seqHeaderSize
  split
  · rfl
  · split <;> simp

/-- The items are written already. -/
def array (items : List (List UInt8)) : List UInt8 := seqHeader 0x90 0xdc 0xdd items.length ++ items.flatten

@[simp] theorem length_array (items : List (List UInt8)) :
    (array items).length = seqHeaderSize items.length + (items.map List.length).sum := by
  rw [array, List.length_append, length_seqHeader, List.length_flatten]

/-- A record: the names of the fields, with their values written already. -/
def map (fields : List (String × List UInt8)) : List UInt8 :=
  seqHeader 0x80 0xde 0xdf fields.length ++ fields.flatMap fun f => str f.1 ++ f.2

@[simp] theorem length_map (fields : List (String × List UInt8)) :
    (map fields).length =
      seqHeaderSize fields.length + (fields.map fun f => strSize (utf8 f.1).length + f.2.length).sum := by
  rw [map, List.length_append, length_seqHeader, List.length_flatMap]
  congr 2
  refine List.map_congr_left fun f _ => ?_
  rw [List.length_append, length_str]

end Lib.Msgpack
