/-
**`key_transform.h`: keys as bytes whose comparison is the order of the keys.**

Integers are bit vectors. Arithmetic on types narrower than `int` is done in `int`, here 32 bits, and
narrowed again; `>>` on a signed value keeps the sign. The objects of a host are its bytes in memory
(`Host.bytes`), and `is_big_endian` asks the host for the first of them.

* `KeyType`: the fixed-width integers, and pairs of key types;
* `KeyType.keyTransform`: `key_transform` for each of them;
* `StringKey.keyTransform`: `key_transform<std::string, MAX_SIZE>`, where `std::memcpy` writes the
  bytes one after the other.
-/

import CppArt.Lib.Bytes
import CppArt.Model.Layout

namespace CppArt

/-! ### The host -/

/-- The byte order of the host. -/
inductive Host
  | littleEndian
  | bigEndian
deriving DecidableEq, Repr

/-- The bytes in memory of an integer object of a size. -/
def Host.bytes (host : Host) (size : ℕ) {w : ℕ} (val : BitVec w) : Vector Byte size :=
  Vector.ofFn fun i => digit 256 val.toNat
    (match host with
      | .littleEndian => i
      | .bigEndian => size - 1 - i)

/-- `is_big_endian`: `int num = 1; return !(*(char *) &num == 1);`. -/
def Host.isBigEndian (host : Host) : Bool := !((host.bytes 4 (1 : BitVec 32)).get 0 == 1)

/-! ### `byte_swap` -/

/-- `byte_swap(uint16_t)`. -/
def byteSwapUInt16 (val : BitVec 16) : BitVec 16 :=
  let promoted := val.setWidth 32
  (promoted <<< 8 ||| promoted.sshiftRight 8).setWidth 16

/-- `byte_swap(int16_t)`. -/
def byteSwapInt16 (val : BitVec 16) : BitVec 16 :=
  let promoted := val.signExtend 32
  (promoted <<< 8 ||| (promoted.sshiftRight 8 &&& 0xFF)).setWidth 16

/-- `byte_swap(uint32_t)`. -/
def byteSwapUInt32 (val : BitVec 32) : BitVec 32 :=
  let val := (val <<< 8 &&& 0xFF00FF00) ||| (val >>> 8 &&& 0xFF00FF)
  val <<< 16 ||| val >>> 16

/-- `byte_swap(int32_t)`. -/
def byteSwapInt32 (val : BitVec 32) : BitVec 32 :=
  let val := (val <<< 8 &&& 0xFF00FF00) ||| (val.sshiftRight 8 &&& 0xFF00FF)
  val <<< 16 ||| (val.sshiftRight 16 &&& 0xFFFF)

/-- `byte_swap(uint64_t)`. -/
def byteSwapUInt64 (val : BitVec 64) : BitVec 64 :=
  let val := (val <<< 8 &&& 0xFF00FF00FF00FF00) ||| (val >>> 8 &&& 0x00FF00FF00FF00FF)
  let val := (val <<< 16 &&& 0xFFFF0000FFFF0000) ||| (val >>> 16 &&& 0x0000FFFF0000FFFF)
  val <<< 32 ||| val >>> 32

/-- `byte_swap(int64_t)`. -/
def byteSwapInt64 (val : BitVec 64) : BitVec 64 :=
  let val := (val <<< 8 &&& 0xFF00FF00FF00FF00) ||| (val.sshiftRight 8 &&& 0x00FF00FF00FF00FF)
  let val := (val <<< 16 &&& 0xFFFF0000FFFF0000) ||| (val.sshiftRight 16 &&& 0x0000FFFF0000FFFF)
  val <<< 32 ||| (val.sshiftRight 32 &&& 0xFFFFFFFF)

/-! ### `key_transform` for integers -/

/-- `key_transform<uint8_t>`. -/
def keyTransformUInt8 (val : BitVec 8) : BitVec 8 := val

/-- `key_transform<uint16_t>`. -/
def keyTransformUInt16 (host : Host) (val : BitVec 16) : BitVec 16 :=
  if host.isBigEndian then val else byteSwapUInt16 val

/-- `key_transform<uint32_t>`. -/
def keyTransformUInt32 (host : Host) (val : BitVec 32) : BitVec 32 :=
  if host.isBigEndian then val else byteSwapUInt32 val

/-- `key_transform<uint64_t>`. -/
def keyTransformUInt64 (host : Host) (val : BitVec 64) : BitVec 64 :=
  if host.isBigEndian then val else byteSwapUInt64 val

/-- `key_transform<int8_t>`. -/
def keyTransformInt8 (val : BitVec 8) : BitVec 8 :=
  (val.signExtend 32 ^^^ (1 : BitVec 8).signExtend 32 <<< (8 - 1)).setWidth 8

/-- `key_transform<int16_t>`. -/
def keyTransformInt16 (host : Host) (val : BitVec 16) : BitVec 16 :=
  let val := (val.signExtend 32 ^^^ (1 : BitVec 16).signExtend 32 <<< (16 - 1)).setWidth 16
  if host.isBigEndian then val else byteSwapInt16 val

/-- `key_transform<int32_t>`. -/
def keyTransformInt32 (host : Host) (val : BitVec 32) : BitVec 32 :=
  let val := val ^^^ (1 : BitVec 32) <<< (32 - 1)
  if host.isBigEndian then val else byteSwapInt32 val

/-- `key_transform<int64_t>`. -/
def keyTransformInt64 (host : Host) (val : BitVec 64) : BitVec 64 :=
  let val := val ^^^ (1 : BitVec 64) <<< (64 - 1)
  if host.isBigEndian then val else byteSwapInt64 val

/-- The fixed-width integer types. -/
inductive IntType
  | int8
  | int16
  | int32
  | int64
  | uint8
  | uint16
  | uint32
  | uint64
deriving DecidableEq, Repr

namespace IntType

/-- `sizeof`. -/
def size : IntType → ℕ
  | int8 | uint8 => 1
  | int16 | uint16 => 2
  | int32 | uint32 => 4
  | int64 | uint64 => 8

/-- The number of bits. -/
def bits : IntType → ℕ
  | int8 | uint8 => 8
  | int16 | uint16 => 16
  | int32 | uint32 => 32
  | int64 | uint64 => 64

/-- Values of the type may be negative. -/
def signed : IntType → Bool
  | int8 | int16 | int32 | int64 => true
  | uint8 | uint16 | uint32 | uint64 => false

/-- `key_transform` of the type. -/
def keyTransform (host : Host) : (t : IntType) → BitVec t.bits → BitVec t.bits
  | int8, val => keyTransformInt8 val
  | int16, val => keyTransformInt16 host val
  | int32, val => keyTransformInt32 host val
  | int64, val => keyTransformInt64 host val
  | uint8, val => keyTransformUInt8 val
  | uint16, val => keyTransformUInt16 host val
  | uint32, val => keyTransformUInt32 host val
  | uint64, val => keyTransformUInt64 host val

/-- `<` of the type. -/
def less (t : IntType) (x y : BitVec t.bits) : Bool := if t.signed then x.slt y else x.ult y

end IntType

/-! ### Pairs -/

/-- The key types: integers, and `std::pair` of two of them. -/
inductive KeyType
  | int (t : IntType)
  | pair (first second : KeyType)
deriving DecidableEq, Repr

namespace KeyType

/-- The keys of a type. -/
def Value : KeyType → Type
  | int t => BitVec t.bits
  | pair first second => first.Value × second.Value

/-- `sizeof` of a transformed key. -/
def size : KeyType → ℕ
  | int t => t.size
  | pair first second => first.size + second.size

/-- The transformed keys of a type. -/
def Transformed : KeyType → Type
  | int t => BitVec t.bits
  | pair first second => Vector Byte (first.size + second.size)

/-- The bytes in memory of a transformed key. -/
def objectBytes (host : Host) : (t : KeyType) → t.Transformed → Vector Byte t.size
  | int t, transformed => host.bytes t.size transformed
  | pair _ _, transformed => transformed

/-- `key_transform` of the type. For a pair, `std::move` copies the bytes of both transformed parts. -/
def keyTransform (host : Host) : (t : KeyType) → t.Value → t.Transformed
  | int t, key => t.keyTransform host key
  | pair first second, key =>
      first.objectBytes host (first.keyTransform host key.1)
        ++ second.objectBytes host (second.keyTransform host key.2)

/-- The bytes of `key_transform(key)`. -/
def keyBytes (host : Host) (t : KeyType) (key : t.Value) : Vector Byte t.size :=
  t.objectBytes host (t.keyTransform host key)

/-- `<` of the type. For a pair it is `x.first < y.first || (!(y.first < x.first) && x.second <
y.second)`. -/
def less : (t : KeyType) → t.Value → t.Value → Bool
  | int t, x, y => t.less x y
  | pair first second, x, y =>
      first.less x.1 y.1 || (!first.less y.1 x.1 && second.less x.2 y.2)

end KeyType

/-! ### Strings -/

namespace StringKey

/-- `std::memcpy(&transformed, src, src.size())`, from a position of the array on. -/
def memcpy {size : ℕ} : List Byte → ℕ → Vector Byte size → Except Fault (Vector Byte size)
  | [], _, transformed => .ok transformed
  | byte :: rest, pos, transformed =>
      if pos < size then memcpy rest (pos + 1) (transformed.setIfInBounds pos byte)
      else .error .outOfBounds

/-- `key.c_str()`: the bytes of the string and a NUL. -/
def cStr (key : List Byte) : List Byte := key ++ [0]

/-- `key_transform<std::string, MAX_SIZE>`. -/
def keyTransform (maxSize : ℕ) (key : List Byte) : Except Fault (Vector Byte maxSize) :=
  memcpy (cStr key) 0 (Vector.replicate maxSize 0)

/-- `std::string::compare`: the bytes up to the smaller size, then the sizes. -/
def compare (x y : List Byte) : Ordering :=
  let len := min x.length y.length
  (lexCompare (x.take len) (y.take len)).then (Ord.compare x.length y.length)

end StringKey

end CppArt
