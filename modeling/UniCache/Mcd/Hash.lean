import UniCache.Mcd.Types

/-! `getHash`, the 32-bit SuperFastHash by which the cache identifies keys. -/
namespace UniCache.Mcd

/-- `get16bits`: two bytes, little endian. -/
def get16bits (lo hi : UInt8) : UInt32 := lo.toUInt32 ||| (hi.toUInt32 <<< 8)

/-- The value of a plain `char`, which is signed here, in 32-bit arithmetic. -/
def charBits (b : UInt8) : UInt32 := if b < 128 then b.toUInt32 else b.toUInt32 ||| 0xffffff00

/-- The main loop over groups of four bytes, then the `switch` on the rest. -/
def hashLoop : UInt32 → List UInt8 → UInt32
  | hash, a :: b :: c :: d :: data =>
    let hash := hash + get16bits a b
    let tmp := (get16bits c d <<< 11) ^^^ hash
    let hash := (hash <<< 16) ^^^ tmp
    hashLoop (hash + (hash >>> 11)) data
  | hash, [a, b, c] =>
    let hash := hash + get16bits a b
    let hash := hash ^^^ (hash <<< 16)
    let hash := hash ^^^ (charBits c <<< 18)
    hash + (hash >>> 11)
  | hash, [a, b] =>
    let hash := hash + get16bits a b
    let hash := hash ^^^ (hash <<< 11)
    hash + (hash >>> 17)
  | hash, [a] =>
    let hash := hash + charBits a
    let hash := hash ^^^ (hash <<< 10)
    hash + (hash >>> 1)
  | hash, [] => hash

def hashMix (hash : UInt32) : UInt32 :=
  let hash := hash ^^^ (hash <<< 3)
  let hash := hash + (hash >>> 5)
  let hash := hash ^^^ (hash <<< 4)
  let hash := hash + (hash >>> 17)
  let hash := hash ^^^ (hash <<< 25)
  hash + (hash >>> 6)

/-- The length is an `int`: from `2 ^ 31` bytes on it is negative and the hash is 0. -/
def getHash (data : List UInt8) : UInt32 :=
  if data.length = 0 ∨ 2 ^ 31 ≤ data.length then 0
  else hashMix (hashLoop (UInt32.ofNat data.length) data)

/-- `hash % MAX_LIST_HEAD`. -/
def bucketOf (hash : UInt32) : Bucket := Fin.ofNat 100 hash.toNat

example : getHash [0x62, 0x6f, 0x63, 0x73] = 2429891211 := by decide

end UniCache.Mcd
