namespace Modularity.Xxh64

def prime1 : UInt64 := 0x9E3779B185EBCA87
def prime2 : UInt64 := 0xC2B2AE3D27D4EB4F
def prime3 : UInt64 := 0x165667B19E3779F9
def prime4 : UInt64 := 0x85EBCA77C2B2AE63
def prime5 : UInt64 := 0x27D4EB2F165667C5

def rotate (x n : UInt64) : UInt64 := (x <<< n) ||| (x >>> (64 - n))

/-- The word that bytes spell, the lowest byte first. -/
def word (bytes : List UInt8) : UInt64 := bytes.foldr (fun b w ↦ (w <<< 8) ||| b.toUInt64) 0

def round (lane w : UInt64) : UInt64 := rotate (lane + w * prime2) 31 * prime1

structure Lanes where
  first : UInt64 := prime1 + prime2
  second : UInt64 := prime2
  third : UInt64 := 0
  fourth : UInt64 := 0 - prime1

namespace Lanes

def mix (l : Lanes) (bytes : List UInt8) : Lanes where
  first := round l.first (word (bytes.take 8))
  second := round l.second (word ((bytes.drop 8).take 8))
  third := round l.third (word ((bytes.drop 16).take 8))
  fourth := round l.fourth (word ((bytes.drop 24).take 8))

def mixAll : Nat → Lanes → List UInt8 → Lanes
  | 0, l, _ => l
  | count + 1, l, bytes => mixAll count (l.mix bytes) (bytes.drop 32)

def join (h lane : UInt64) : UInt64 := (h ^^^ round 0 lane) * prime1 + prime4

def hash (l : Lanes) : UInt64 :=
  let h := rotate l.first 1 + rotate l.second 7 + rotate l.third 12 + rotate l.fourth 18
  join (join (join (join h l.first) l.second) l.third) l.fourth

end Lanes

def mixWords : Nat → UInt64 → List UInt8 → UInt64
  | 0, h, _ => h
  | count + 1, h, bytes =>
    mixWords count (rotate (h ^^^ round 0 (word (bytes.take 8))) 27 * prime1 + prime4) (bytes.drop 8)

def mixHalf (h : UInt64) (bytes : List UInt8) : UInt64 :=
  if bytes.length < 4 then h
  else rotate (h ^^^ (word (bytes.take 4) * prime1)) 23 * prime2 + prime3

def mixBytes (h : UInt64) (bytes : List UInt8) : UInt64 :=
  bytes.foldl (fun h b ↦ rotate (h ^^^ (b.toUInt64 * prime5)) 11 * prime1) h

def avalanche (h : UInt64) : UInt64 :=
  let h := (h ^^^ (h >>> 33)) * prime2
  let h := (h ^^^ (h >>> 29)) * prime3
  h ^^^ (h >>> 32)

/-- XXH64 with seed zero. Bytes are taken in stripes of four words while there are enough of them; what is
left is mixed in by words, by one half word and by single bytes. -/
def hash (bytes : List UInt8) : UInt64 :=
  let size := bytes.length
  let stripes := size / 32
  let start := if stripes = 0 then prime5 else (Lanes.mixAll stripes {} bytes).hash
  let tail := bytes.drop (32 * stripes)
  let words := tail.length / 8
  let h := mixWords words (start + UInt64.ofNat size) tail
  let tail := tail.drop (8 * words)
  let h := mixHalf h tail
  let h := mixBytes h (if tail.length < 4 then tail else tail.drop 4)
  avalanche h

end Modularity.Xxh64
