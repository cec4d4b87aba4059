import TileSched.Json.Text
import TileSched.Fault
/-!
Lifetimes and first-fit offsets. A buffer is live over an inclusive interval of time steps;
two buffers live at the same time never share bytes. Buffers are placed largest first (then
earliest, then by name), each at the lowest aligned offset clear of every placed buffer it
overlaps in time. Offsets and sizes are unsigned 64-bit words.
-/
namespace TileSched

structure Lifetime where
  start : Nat
  stop : Nat
  deriving DecidableEq, Repr, Inhabited

namespace Lifetime

def overlaps (a b : Lifetime) : Bool := a.start ≤ b.stop && b.start ≤ a.stop

def union (a b : Lifetime) : Lifetime := ⟨min a.start b.start, max a.stop b.stop⟩

def render (l : Lifetime) : String := "[" ++ toString l.start ++ ", " ++ toString l.stop ++ "]"

def shape : Shape := .record "Lifetime" [("start", .int .usize, none), ("end", .int .usize, none)]

def ofJson (j : Json) : Lifetime := ⟨(j.fieldD "start").natD, (j.fieldD "end").natD⟩

def toJson (l : Lifetime) : Json := .obj [("start", .int l.start), ("end", .int l.stop)]

end Lifetime

structure LiveBuffer where
  name : String
  sizeBytes : Nat
  lifetime : Lifetime
  deriving DecidableEq, Repr, Inhabited

namespace LiveBuffer

def shape : Shape :=
  .record "LiveBuffer" [("name", .string, none), ("size_bytes", .int .u64, none), ("lifetime", Lifetime.shape, none)]

def ofJson (j : Json) : LiveBuffer :=
  ⟨(j.fieldD "name").strD, (j.fieldD "size_bytes").natD, .ofJson (j.fieldD "lifetime")⟩

def toJson (b : LiveBuffer) : Json :=
  .obj [("name", .str b.name), ("size_bytes", .int b.sizeBytes), ("lifetime", b.lifetime.toJson)]

end LiveBuffer

structure Allocation where
  name : String
  offset : Nat
  sizeBytes : Nat
  lifetime : Lifetime
  deriving DecidableEq, Repr, Inhabited

namespace Allocation

def stop (a : Allocation) : Except Fault Nat := U64.add a.offset a.sizeBytes

def conflicts (a : Allocation) (offset size : Nat) (l : Lifetime) : Except Fault Bool := do
  if !a.lifetime.overlaps l then return false
  if !(offset < (← a.stop)) then return false
  return a.offset < (← U64.add offset size)

def shape : Shape :=
  .record "Allocation" [("name", .string, none), ("offset", .int .u64, none), ("size_bytes", .int .u64, none),
    ("lifetime", Lifetime.shape, none)]

def ofJson (j : Json) : Allocation :=
  ⟨(j.fieldD "name").strD, (j.fieldD "offset").natD, (j.fieldD "size_bytes").natD, .ofJson (j.fieldD "lifetime")⟩

def toJson (a : Allocation) : Json :=
  .obj [("name", .str a.name), ("offset", .int a.offset), ("size_bytes", .int a.sizeBytes),
    ("lifetime", a.lifetime.toJson)]

end Allocation

structure FirstFit where
  alignment : Nat := 64
  deriving DecidableEq, Repr, Inhabited

namespace FirstFit

def new (alignment : Nat) : FirstFit := ⟨max alignment 1⟩

def align (ff : FirstFit) (v : Nat) : Except Fault Nat :=
  U64.mul ((v + ff.alignment - 1) / ff.alignment) ff.alignment

def before (a b : LiveBuffer × Nat) : Bool :=
  a.1.sizeBytes > b.1.sizeBytes || (a.1.sizeBytes == b.1.sizeBytes &&
    (a.1.lifetime.start < b.1.lifetime.start ||
      (a.1.lifetime.start == b.1.lifetime.start && a.1.name ≤ b.1.name)))

def passLive (ff : FirstFit) (size : Nat) (l : Lifetime) (offset : Nat) (a : Allocation) : Except Fault Nat := do
  if ← a.conflicts offset size l then ff.align (← a.stop) else pure offset

def offsetAmong (ff : FirstFit) (live : List Allocation) (size : Nat) (l : Lifetime) : Except Fault Nat :=
  live.foldlM (ff.passLive size l) 0

/-- Places buffer `b`, the `i`-th, after the allocations `active`: at the offset the scan finds
among those live with it, sorted by offset. When `traced`, the allocation's end is computed for
its record. -/
def placeNext (ff : FirstFit) (traced : Bool) (active : List (Allocation × Nat)) (bi : LiveBuffer × Nat) :
    Except Fault (List (Allocation × Nat)) := do
  let size ← ff.align bi.1.sizeBytes
  let live := ((active.map (·.1)).filter (·.lifetime.overlaps bi.1.lifetime)).mergeSort
    fun x y => x.offset ≤ y.offset
  let offset ← ff.offsetAmong live size bi.1.lifetime
  let a : Allocation := ⟨bi.1.name, offset, size, bi.1.lifetime⟩
  if traced then
    let _ ← a.stop
  return active ++ [(a, bi.2)]

/-- Places every buffer in placement order; each allocation comes with the position of its
buffer. When the placements are `traced`, each allocation's end is computed as it is placed, for
its record, so an end past 64 bits stops the placement there. -/
def place (ff : FirstFit) (traced : Bool) (buffers : List LiveBuffer) :
    Except Fault (List (Allocation × Nat)) :=
  ((buffers.zipIdx).mergeSort before).foldlM (ff.placeNext traced) []

def inInputOrder (placed : List (Allocation × Nat)) : List Allocation :=
  (placed.mergeSort fun x y => x.2 ≤ y.2).map (·.1)

/-- Places every buffer, `traced` as for `place`; the allocations come back in the order of the
buffers. -/
def schedule (ff : FirstFit) (traced : Bool) (buffers : List LiveBuffer) :
    Except Fault (List Allocation) := do
  return inInputOrder (← ff.place traced buffers)

end FirstFit

def usage (allocs : List Allocation) : Except Fault Nat :=
  allocs.foldlM (fun m a => do return max m (← a.stop)) 0

end TileSched
