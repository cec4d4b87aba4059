import TileSched.Memory.Lifetime
import TileSched.Log
/-!
Persistent buffers: offsets in outer memory for the read-only constants and the data buffers
of every function of a module. Constants are placed once per module kind and shared by content;
each function's data buffers get a region of their own laid out first-fit. A function already
scheduled is left as it is.
-/
namespace TileSched

structure ConstTensor where
  dtype : String
  dims : List Int
  bytes : List Nat
  deriving DecidableEq, Repr, Inhabited

structure ByteRange where
  start : Nat
  stop : Nat
  deriving DecidableEq, Repr, Inhabited

structure RdataPlacement where
  index : Nat
  range : ByteRange
  deriving DecidableEq, Repr, Inhabited

structure FunctionPlan where
  rdatas : List RdataPlacement := []
  data : List Allocation := []
  dataUsage : Nat := 0
  isScheduled : Bool := false
  deriving DecidableEq, Repr, Inhabited

structure Function where
  name : String
  /-- Functions of one kind share one space of constants. -/
  moduleKind : String
  constants : List ConstTensor := []
  dataBuffers : List LiveBuffer := []
  /-- The range of every constant, shared ones included. -/
  constRanges : List ByteRange := []
  plan : FunctionPlan := {}
  deriving DecidableEq, Repr, Inhabited

structure Module where
  functions : List Function := []
  deriving DecidableEq, Repr, Inhabited

/-- What one run over a module accumulates: bytes of constants used per kind, and the range of
every constant placed per kind. -/
structure PersistentSpace where
  used : List (String × Nat) := []
  placed : List (String × List (ConstTensor × ByteRange)) := []
  deriving Inhabited

namespace PersistentSpace

def rdataUsage (s : PersistentSpace) (kind : String) : Nat := (s.used.lookup kind).getD 0

def dataUsage (_ : PersistentSpace) (_ : String) : Nat := 0

def setKey {α : Type} (k : String) (v : α) : List (String × α) → List (String × α)
  | [] => [(k, v)]
  | (k', v') :: rest => if k = k' then (k, v) :: rest else (k', v') :: setKey k v rest

def placeConstant (s : PersistentSpace) (kind : String) (c : ConstTensor) :
    Except Fault (PersistentSpace × ByteRange × Bool) := do
  let known := (s.placed.lookup kind).getD []
  match known.lookup c with
  | some r => return (s, r, false)
  | none =>
    let used := s.rdataUsage kind
    let r : ByteRange := ⟨used, ← U64.add used c.bytes.length⟩
    return ({ used := setKey kind r.stop s.used, placed := setKey kind (known ++ [(c, r)]) s.placed }, r, true)

end PersistentSpace

namespace Function

def placeConstants (f : Function) (s : PersistentSpace) : Except Fault (Function × PersistentSpace × Bool) := do
  let init := ({ f with constRanges := [] }, s, false)
  f.constants.zipIdx.foldlM (fun (acc : Function × PersistentSpace × Bool) (c, index) => do
    let (f, s, changed) := acc
    let (s, r, fresh) ← s.placeConstant f.moduleKind c
    let f := { f with constRanges := f.constRanges ++ [r] }
    if fresh then
      return ({ f with plan := { f.plan with rdatas := f.plan.rdatas ++ [⟨index, r⟩] } }, s, true)
    else return (f, s, changed)) init

def placementRecord (a : Allocation) : LogRecord :=
  ⟨.trace, "tileopt::buffer::lifetime", a.name ++ " -> [" ++ toString a.offset ++ ", " ++
    toString (a.offset + a.sizeBytes) ++ ") live " ++ a.lifetime.render⟩

/-- Lays out the data buffers, if any, `traced` as for `FirstFit.place`, with a record of each
placement in placement order. -/
def placeData (f : Function) (ff : FirstFit) (traced : Bool) :
    Except Fault (Function × Bool × List LogRecord) := do
  if f.dataBuffers.isEmpty then return (f, false, [])
  let placed ← ff.place traced f.dataBuffers
  let records := placed.map fun p => placementRecord p.1
  let allocs := FirstFit.inInputOrder placed
  let u ← usage allocs
  return ({ f with plan := { f.plan with dataUsage := u, data := allocs } }, true, records)

end Function

/-- Schedules every function of a module not yet scheduled; a function that got anything is
marked scheduled and recorded. Placements are `traced` as for `FirstFit.place`. Returns the
module, the space used and the records. -/
def Module.scheduleLogged (m : Module) (ff : FirstFit) (traced : Bool) :
    Except Fault (Module × PersistentSpace × List LogRecord) := do
  let (fs, s, log) ← m.functions.foldlM (fun (acc : List Function × PersistentSpace × List LogRecord) f => do
    let (done, s, log) := acc
    if f.plan.isScheduled then return (done ++ [f], s, log)
    let (f, s, c1) ← f.placeConstants s
    let (f, c2, records) ← f.placeData ff traced
    if c1 || c2 then
      let f := { f with plan := { f.plan with isScheduled := true } }
      let note : LogRecord := ⟨.debug, "tileopt::buffer::ddr", "scheduled " ++ f.name ++ ": " ++
        toString f.plan.rdatas.length ++ " new rdatas, data usage " ++ toString f.plan.dataUsage ++ "B"⟩
      return (done ++ [f], s, log ++ records ++ [note])
    else return (done ++ [f], s, log ++ records)) ([], {}, [])
  return (⟨fs⟩, s, log)

/-- Schedules every function of a module not yet scheduled, every placement traced; a function
that got anything is marked scheduled. Returns the module and the space used. -/
def Module.schedule (m : Module) (ff : FirstFit) : Except Fault (Module × PersistentSpace) := do
  let (m, s, _) ← m.scheduleLogged ff true
  return (m, s)

/-! JSON forms. -/

namespace ConstTensor

def shape : Shape :=
  .record "ConstTensor" [("dtype", .string, none), ("shape", .seq (.int .i64), none), ("bytes", .seq (.int .u8), none)]

def ofJson (j : Json) : ConstTensor :=
  ⟨(j.fieldD "dtype").strD, (j.fieldD "shape").items.map Json.intD, (j.fieldD "bytes").items.map Json.natD⟩

def toJson (c : ConstTensor) : Json :=
  .obj [("dtype", .str c.dtype), ("shape", Json.ofInts c.dims), ("bytes", Json.ofNats c.bytes)]

end ConstTensor

namespace ByteRange

def shape : Shape := .exact "Range" [("start", .int .u64), ("end", .int .u64)] .ok

def ofJson (j : Json) : ByteRange := ⟨(j.fieldD "start").natD, (j.fieldD "end").natD⟩

def toJson (r : ByteRange) : Json := .obj [("start", .int r.start), ("end", .int r.stop)]

end ByteRange

namespace FunctionPlan

def shape : Shape :=
  .record "SchedResult" [
    ("rdatas", .seq (.record "RdataPlacement" [("index", .int .usize, none), ("range", ByteRange.shape, none)]), none),
    ("data", .seq Allocation.shape, none), ("data_usage", .int .u64, none), ("is_scheduled", .bool, none)]

def ofJson (j : Json) : FunctionPlan :=
  ⟨(j.fieldD "rdatas").items.map (fun r => ⟨(r.fieldD "index").natD, .ofJson (r.fieldD "range")⟩),
    (j.fieldD "data").items.map Allocation.ofJson, (j.fieldD "data_usage").natD, (j.fieldD "is_scheduled").boolD⟩

def toJson (p : FunctionPlan) : Json :=
  .obj [("rdatas", .arr (p.rdatas.map fun r => .obj [("index", .int r.index), ("range", r.range.toJson)])),
    ("data", .arr (p.data.map Allocation.toJson)), ("data_usage", .int p.dataUsage),
    ("is_scheduled", .bool p.isScheduled)]

end FunctionPlan

namespace Function

def shape : Shape :=
  .record "Function" [("name", .string, none), ("module_kind", .string, none),
    ("constants", .seq ConstTensor.shape, none), ("data_buffers", .seq LiveBuffer.shape, none),
    ("const_ranges", .seq ByteRange.shape, some (.arr [])),
    ("sched", FunctionPlan.shape, some (FunctionPlan.toJson {}))]

def ofJson (j : Json) : Function :=
  ⟨(j.fieldD "name").strD, (j.fieldD "module_kind").strD, (j.fieldD "constants").items.map ConstTensor.ofJson,
    (j.fieldD "data_buffers").items.map LiveBuffer.ofJson, (j.fieldD "const_ranges").items.map ByteRange.ofJson,
    FunctionPlan.ofJson (j.fieldD "sched")⟩

def toJson (f : Function) : Json :=
  .obj [("name", .str f.name), ("module_kind", .str f.moduleKind),
    ("constants", .arr (f.constants.map ConstTensor.toJson)), ("data_buffers", .arr (f.dataBuffers.map LiveBuffer.toJson)),
    ("const_ranges", .arr (f.constRanges.map ByteRange.toJson)), ("sched", f.plan.toJson)]

end Function

namespace Module

def shape : Shape := .record "Module" [("functions", .seq Function.shape, none)]

def ofJson (j : Json) : Module := ⟨(j.fieldD "functions").items.map Function.ofJson⟩

def toJson (m : Module) : Json := .obj [("functions", .arr (m.functions.map Function.toJson))]

def kinds (m : Module) : List String :=
  ((m.functions.map (·.moduleKind)).mergeSort (fun a b => decide (a ≤ b))).eraseDups

def usageJson (m : Module) (s : PersistentSpace) : Json :=
  .obj (m.kinds.map fun k => (k, .obj [("rdata", .int (s.rdataUsage k)), ("data", .int (s.dataUsage k))]))

end Module

end TileSched
