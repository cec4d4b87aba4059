/-!
A seeded stream of random numbers: the ChaCha block function with six double rounds, keyed from
a 64-bit seed through a PCG32 expansion, read as 64-bit words, and uniform draws below a bound
by widening multiplication with rejection.

The stream is a pure value: every draw returns the next generator, so two runs from one seed
give one sequence.
-/
namespace TileSched.Random

def rotl (x : UInt32) (n : UInt32) : UInt32 := (x <<< n) ||| (x >>> (32 - n))

def rotr (x : UInt32) (n : UInt32) : UInt32 :=
  if n = 0 then x else (x >>> n) ||| (x <<< (32 - n))

def word (s : Array UInt32) (i : Nat) : UInt32 := s.getD i 0

def quarterRound (s : Array UInt32) (a b c d : Nat) : Array UInt32 :=
  let va := word s a + word s b
  let vd := rotl (word s d ^^^ va) 16
  let vc := word s c + vd
  let vb := rotl (word s b ^^^ vc) 12
  let va := va + vb
  let vd := rotl (vd ^^^ va) 8
  let vc := vc + vd
  let vb := rotl (vb ^^^ vc) 7
  ((((s.setIfInBounds a va).setIfInBounds b vb).setIfInBounds c vc).setIfInBounds d vd)

def doubleRound (s : Array UInt32) : Array UInt32 :=
  let s := quarterRound s 0 4 8 12
  let s := quarterRound s 1 5 9 13
  let s := quarterRound s 2 6 10 14
  let s := quarterRound s 3 7 11 15
  let s := quarterRound s 0 5 10 15
  let s := quarterRound s 1 6 11 12
  let s := quarterRound s 2 7 8 13
  quarterRound s 3 4 9 14

/-- The input state of a block: the four constant words, the eight key words, the 64-bit block
counter low word first, and a zero stream number. -/
def blockInput (key : Array UInt32) (counter : UInt64) : Array UInt32 :=
  (#[0x61707865, 0x3320646e, 0x79622d32, 0x6b206574] : Array UInt32) ++ key ++
    #[counter.toUInt32, (counter >>> 32).toUInt32, 0, 0]

/-- The sixteen output words of block `counter` after `rounds` double rounds: the mixed state
plus the input state. -/
def block (rounds : Nat) (key : Array UInt32) (counter : UInt64) : Array UInt32 :=
  let input := blockInput key counter
  let mixed := (List.range rounds).foldl (fun s _ => doubleRound s) input
  (mixed.zip input).map fun (x, y) => x + y

def pairWords : List UInt32 → List UInt64
  | lo :: hi :: rest => (lo.toUInt64 ||| (hi.toUInt64 <<< 32)) :: pairWords rest
  | _ => []

def pcgStep (state : UInt64) : UInt64 × UInt32 :=
  let s := state * 6364136223846793005 + 11634580027462260723
  let xorshifted := (((s >>> 18) ^^^ s) >>> 27).toUInt32
  (s, rotr xorshifted (s >>> 59).toUInt32)

def expandSeed (seed : UInt64) : Array UInt32 :=
  ((List.range 8).foldl (fun (acc : UInt64 × Array UInt32) _ =>
    let (s, w) := pcgStep acc.1
    (s, acc.2.push w)) (seed, #[])).2

end TileSched.Random

namespace TileSched

/-- A generator: the key, the next block to compute and the unread numbers of the current
block. -/
structure Rng where
  key : Array UInt32
  counter : UInt64 := 0
  pending : List UInt64 := []
  deriving Inhabited

namespace Rng

def rounds : Nat := 6

def seeded (seed : UInt64) : Rng := { key := Random.expandSeed seed }

def nextU64 (g : Rng) : UInt64 × Rng :=
  match g.pending with
  | x :: rest => (x, { g with pending := rest })
  | [] =>
    match Random.pairWords (Random.block rounds g.key g.counter).toList with
    | x :: rest => (x, { g with counter := g.counter + 1, pending := rest })
    | [] => (0, { g with counter := g.counter + 1 })

def wideMul (a b : UInt64) : UInt64 × UInt64 :=
  let p := a.toNat * b.toNat
  (UInt64.ofNat (p / 18446744073709551616), UInt64.ofNat p)

/-- Draws with fuel: a draw is kept when the low half of its product with `range` is inside the
unbiased zone, and its high half is the result. -/
def belowAux (range zone : UInt64) : Nat → Rng → Nat × Rng
  | 0, g => (0, g)
  | f + 1, g =>
    let (v, g) := g.nextU64
    let (hi, lo) := wideMul v range
    if lo ≤ zone then (hi.toNat, g) else belowAux range zone f g

def drawFuel : Nat := 256

def below (g : Rng) (n : Nat) : Nat × Rng :=
  let range := UInt64.ofNat n
  let zone := (range <<< UInt64.ofNat (63 - range.toNat.log2)) - 1
  belowAux range zone drawFuel g

end Rng

end TileSched
