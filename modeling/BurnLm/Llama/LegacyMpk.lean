/-
# Reading the legacy weight files

A legacy file is one document that mirrors the module tree. Modules are maps
from field names, lists of modules are arrays, constants are scalars, and every
parameter is a map of an `id` and a `param`. The reader goes through the
document once, keeps the path to where it is, and collects the parameters under
their dotted path. At the root the recorder's envelope is looked through.

The document's nodes arrive in order, as the deserializer presents them. How a
parameter's data is read and its numbers are converted is left open.
-/

import Mathlib.Algebra.Ring.Nat
import Mathlib.Data.List.Infix

namespace BurnLm.Llama

/-- A node of the document. A key that cannot be read as a text is `none`. -/
inductive Node
  | unit
  | bool (value : Bool)
  | int (value : ℤ)
  | float (bits : ℕ)
  | str (value : String)
  | bytes (value : List ℕ)
  | newtype (inner : Node)
  | seq (items : List Node)
  | map (entries : List (Option String × Node))

/-- The types of numbers. -/
inductive DType
  | qFloat | bool | f64 | f32 | flex32 | f16 | bf16
  | i64 | i32 | i16 | i8 | u64 | u32 | u16 | u8
  deriving DecidableEq, Repr

structure TensorData where
  bytes : List ℕ
  shape : List ℕ
  dtype : DType
  deriving DecidableEq, Repr

/-- A parameter, as it is handed on. -/
structure NamedTensor where
  data : TensorData
  name : String
  paramId : Option ℕ
  deriving DecidableEq, Repr

/-- What the reader is given: how bytes are read as a text, how data is read and
converted, and the device's own types. -/
structure LegacyReader where
  decodeUtf8 : List ℕ → Option String
  readTensor : Node → Option TensorData
  convertDtype : TensorData → DType → TensorData
  floatDtype : DType
  intDtype : DType

/-- Why a walk fails. -/
inductive WalkError
  | invalid
  | expectedParam (path : String) (found : Option String)
  | extraKey (path : String)
  | quantized (name : String)
  deriving DecidableEq, Repr

/-- The text of an error; `debug` spells out a key that was found. -/
def WalkError.text (debug : Option String → String) : WalkError → String
  | .invalid => "invalid type"
  | .expectedParam path found =>
    "expected `param` after `id` at `" ++ path ++ "`, found " ++ debug found
  | .extraKey path => "unexpected extra key in parameter `" ++ path ++ "`"
  | .quantized name =>
    "parameter `" ++ name ++ "` is quantized; quantized .mpk files predate the current " ++
      "quantization scheme and cannot be read"

/-- What is carried down the document: the path to the node being read, and the
parameters so far. -/
structure Walk where
  path : List String
  tensors : List NamedTensor
  deriving DecidableEq, Repr

namespace Walk

def push (walk : Walk) (key : String) : Walk := { walk with path := walk.path ++ [key] }

def pop (walk : Walk) : Walk := { walk with path := walk.path.dropLast }

def dotted (walk : Walk) : String := ".".intercalate walk.path

end Walk

/-- A decimal number of 64 bits, as it is parsed. -/
def parseU64 (text : String) : Option ℕ :=
  let digits := if text.toList.head? = some '+' then text.toList.tail else text.toList
  if digits ≠ [] ∧ digits.all Char.isDigit then
    let value := digits.foldl (fun value digit => 10 * value + (digit.toNat - 48)) 0
    if value < 2 ^ 64 then some value else none
  else none

namespace LegacyReader

variable (reader : LegacyReader)

/-- A parameter's data as the device has it. Quantized data is refused. -/
def convert (data : TensorData) : Option TensorData :=
  match data.dtype with
  | .qFloat => none
  | .bool => some data
  | .f64 | .f32 | .flex32 | .f16 | .bf16 => some (reader.convertDtype data reader.floatDtype)
  | .i64 | .i32 | .i16 | .i8 | .u64 | .u32 | .u16 | .u8 =>
    some (reader.convertDtype data reader.intDtype)

/-- Record a parameter at the current path. -/
def leaf (walk : Walk) (id : String) (data : TensorData) : Except WalkError Walk :=
  match reader.convert data with
  | none => .error (.quantized walk.dotted)
  | some data =>
    .ok { walk with tensors := walk.tensors ++ [⟨data, walk.dotted, parseU64 id⟩] }

/-- A value read as a text. -/
def readText : Node → Option String
  | .str value => some value
  | .bytes value => reader.decodeUtf8 value
  | _ => none

/-- What follows an `id`: the parameter, and nothing else. -/
def visitLeaf (walk : Walk) (id : Node) (entries : List (Option String × Node)) :
    Except WalkError Walk :=
  match reader.readText id with
  | none => .error .invalid
  | some id =>
    match entries with
    | [] => .error (.expectedParam walk.dotted none)
    | (none, _) :: _ => .error .invalid
    | (some key, data) :: rest =>
      if key ≠ "param" then .error (.expectedParam walk.dotted (some key))
      else
        match reader.readTensor data with
        | none => .error .invalid
        | some data =>
          match rest with
          | [] => reader.leaf walk id data
          | (none, _) :: _ => .error .invalid
          | (some _, _) :: _ => .error (.extraKey walk.dotted)

mutual

/-- One node of the document. -/
def visit (walk : Walk) : Node → Except WalkError Walk
  | .newtype inner => visit walk inner
  | .seq items => visitSeq walk 0 items
  | .map entries =>
    match entries with
    | (some "id", id) :: rest => reader.visitLeaf walk id rest
    | entries => visitEntries walk entries
  | _ => .ok walk

/-- The elements of an array, from an index on. -/
def visitSeq (walk : Walk) (index : ℕ) : List Node → Except WalkError Walk
  | [] => .ok (walk.push (toString index)).pop
  | item :: items => do
    let walk ← visit (walk.push (toString index)) item
    visitSeq walk.pop (index + 1) items

/-- The fields of a module. At the root the envelope's `item` is the module
itself, and its `metadata` has nothing to load. -/
def visitEntries (walk : Walk) : List (Option String × Node) → Except WalkError Walk
  | [] => .ok walk
  | (none, _) :: _ => .error .invalid
  | (some key, value) :: entries => do
    if walk.path = [] ∧ key = "metadata" then visitEntries walk entries
    else if walk.path = [] ∧ key = "item" then
      let walk ← visit walk value
      visitEntries walk entries
    else
      let walk ← visit (walk.push key) value
      visitEntries walk.pop entries

end

end LegacyReader

/-! ## Module records -/

/-- A parameter as it is written: its id, and its data as a node. -/
structure Param where
  id : String
  data : Node

/-- A module's record. A constant is a scalar or nothing. -/
inductive Record
  | constant (value : Node)
  | parameter (param : Param)
  | array (items : List Record)
  | module (fields : List (String × Record))

namespace Record

mutual

/-- The record as a node of the document. -/
def node : Record → Node
  | .constant value => value
  | .parameter param => .map [(some "id", .str param.id), (some "param", param.data)]
  | .array items => .seq (nodes items)
  | .module fields => .map (entries fields)

def nodes : List Record → List Node
  | [] => []
  | item :: items => node item :: nodes items

def entries : List (String × Record) → List (Option String × Node)
  | [] => []
  | (key, value) :: fields => (some key, node value) :: entries fields

end

mutual

/-- The parameters in document order, each under the keys and indices that lead
to it. -/
def params : Record → List (List String × Param)
  | .constant _ => []
  | .parameter param => [([], param)]
  | .array items => paramsSeq 0 items
  | .module fields => paramsFields fields

def paramsSeq (index : ℕ) : List Record → List (List String × Param)
  | [] => []
  | item :: items =>
    (params item).map (fun found => (toString index :: found.1, found.2)) ++
      paramsSeq (index + 1) items

def paramsFields : List (String × Record) → List (List String × Param)
  | [] => []
  | (key, value) :: fields =>
    (params value).map (fun found => (key :: found.1, found.2)) ++ paramsFields fields

end

/-- Constants: nothing, or a scalar. -/
def IsScalar : Node → Prop
  | .newtype _ | .seq _ | .map _ => False
  | _ => True

mutual

/-- Constants are scalars, the data of parameters can be read and is not
quantized, and no module's first field is called `id`. -/
def WellFormed (reader : LegacyReader) : Record → Prop
  | .constant value => IsScalar value
  | .parameter param => ∃ data, reader.readTensor param.data = some data ∧ data.dtype ≠ .qFloat
  | .array items => WellFormedSeq reader items
  | .module fields => fields.head?.map Prod.fst ≠ some "id" ∧ WellFormedFields reader fields

def WellFormedSeq (reader : LegacyReader) : List Record → Prop
  | [] => True
  | item :: items => WellFormed reader item ∧ WellFormedSeq reader items

def WellFormedFields (reader : LegacyReader) : List (String × Record) → Prop
  | [] => True
  | (_, value) :: fields => WellFormed reader value ∧ WellFormedFields reader fields

end

/-- The fields of a module at the root are not taken for the envelope. -/
def Rooted : Record → Prop
  | .module fields => ∀ field ∈ fields, field.1 ≠ "item" ∧ field.1 ≠ "metadata"
  | _ => True

end Record

namespace LegacyReader

variable (reader : LegacyReader)

/-- A parameter under a path, as it is to be handed on. -/
def named (path : List String) (param : Param) : Option NamedTensor :=
  ((reader.readTensor param.data).bind reader.convert).map fun data =>
    ⟨data, ".".intercalate path, parseU64 param.id⟩

/-- The walk over a subtree: the path is back to what it was, and the parameters
collected are the ones found, in order. -/
def Collects (walk : Walk) (found : List (List String × Param))
    (result : Except WalkError Walk) : Prop :=
  ∃ tensors, result = .ok { walk with tensors := walk.tensors ++ tensors } ∧
    tensors.map some = found.map fun param => reader.named (walk.path ++ param.1) param.2

variable {reader}

theorem Collects.nil (walk : Walk) : reader.Collects walk [] (.ok walk) :=
  ⟨[], by simp, rfl⟩

/-- A subtree under a key, and what comes behind it. -/
theorem Collects.step {walk : Walk} {key : String} {inner : Except WalkError Walk}
    {next : Walk → Except WalkError Walk} {found more : List (List String × Param)}
    (hinner : reader.Collects (walk.push key) found inner)
    (hnext : ∀ tensors, reader.Collects { walk with tensors := walk.tensors ++ tensors } more
      (next { walk with tensors := walk.tensors ++ tensors })) :
    reader.Collects walk (found.map (fun param => (key :: param.1, param.2)) ++ more)
      (inner >>= fun walk => next walk.pop) := by
  obtain ⟨first, rfl, hfirst⟩ := hinner
  obtain ⟨second, hrest, hsecond⟩ := hnext first
  refine ⟨first ++ second, ?_, ?_⟩
  · have hpop : Walk.pop { walk.push key with tensors := walk.tensors ++ first } =
        { walk with tensors := walk.tensors ++ first } := by
      simp [Walk.pop, Walk.push]
    simp only [bind, Except.bind]
    rw [show (walk.push key).tensors = walk.tensors from rfl, hpop, hrest, List.append_assoc]
  · rw [List.map_append, hfirst, hsecond, List.map_append, List.map_map]
    simp [Walk.push, Function.comp_def]

theorem visit_scalar {walk : Walk} {value : Node} (hscalar : Record.IsScalar value) :
    reader.visit walk value = .ok walk := by
  cases value <;> first | rfl | exact absurd hscalar (by simp [Record.IsScalar])

theorem visit_module {walk : Walk} {fields : List (String × Record)}
    (hfirst : fields.head?.map Prod.fst ≠ some "id") :
    reader.visit walk (Record.module fields).node =
      reader.visitEntries walk (Record.entries fields) := by
  rw [Record.node, visit]
  intro id rest hentries
  rcases fields with _ | ⟨⟨key, value⟩, fields⟩
  · simp [Record.entries] at hentries
  · simp only [Record.entries, List.cons.injEq, Prod.mk.injEq, Option.some.injEq] at hentries
    exact hfirst (congrArg some hentries.1.1)

theorem visit_parameter {walk : Walk} {param : Param}
    (hparam : ∃ data, reader.readTensor param.data = some data ∧ data.dtype ≠ .qFloat) :
    reader.Collects walk [([], param)] (reader.visit walk (Record.parameter param).node) := by
  obtain ⟨data, hread, hdtype⟩ := hparam
  obtain ⟨converted, hconverted⟩ : ∃ converted, reader.convert data = some converted := by
    unfold convert
    cases hcase : data.dtype <;> simp_all
  refine ⟨[⟨converted, walk.dotted, parseU64 param.id⟩], ?_, ?_⟩
  · rw [Record.node, visit]
    simp [visitLeaf, readText, hread, leaf, hconverted]
  · simp [named, hread, hconverted, Walk.dotted]

mutual

theorem visit_record : ∀ (record : Record) {walk : Walk}, record.WellFormed reader →
    (walk.path = [] → record.Rooted) →
    reader.Collects walk record.params (reader.visit walk record.node)
  | .constant value, walk, hrecord, _ => by
      rw [Record.node, visit_scalar hrecord, Record.params]
      exact .nil walk
  | .parameter param, walk, hrecord, _ => by
      rw [Record.params]
      exact visit_parameter hrecord
  | .array items, walk, hrecord, _ => by
      rw [Record.node, visit, Record.params]
      exact visitSeq_record items 0 hrecord
  | .module fields, walk, hrecord, hrooted => by
      rw [visit_module hrecord.1, Record.params]
      exact visitEntries_record fields hrecord.2 hrooted

theorem visitSeq_record : ∀ (items : List Record) {walk : Walk} (index : ℕ),
    Record.WellFormedSeq reader items →
    reader.Collects walk (Record.paramsSeq index items)
      (reader.visitSeq walk index (Record.nodes items))
  | [], walk, index, _ => by
      have hpop : (walk.push (toString index)).pop = walk := by simp [Walk.pop, Walk.push]
      rw [Record.nodes, visitSeq, hpop, Record.paramsSeq]
      exact .nil walk
  | item :: items, walk, index, hitems => by
      rw [Record.nodes, visitSeq, Record.paramsSeq]
      exact @Collects.step _ _ _ _
        (fun walk => reader.visitSeq walk (index + 1) (Record.nodes items)) _ _
        (visit_record item hitems.1 (by simp [Walk.push]))
        fun tensors => visitSeq_record items (index + 1) hitems.2

theorem visitEntries_record : ∀ (fields : List (String × Record)) {walk : Walk},
    Record.WellFormedFields reader fields →
    (walk.path = [] → ∀ field ∈ fields, field.1 ≠ "item" ∧ field.1 ≠ "metadata") →
    reader.Collects walk (Record.paramsFields fields)
      (reader.visitEntries walk (Record.entries fields))
  | [], walk, _, _ => by
      rw [Record.entries, visitEntries, Record.paramsFields]
      exact .nil walk
  | (key, value) :: fields, walk, hfields, hkeys => by
      rw [Record.entries, visitEntries, Record.paramsFields,
        if_neg fun henvelope => (hkeys henvelope.1 _ List.mem_cons_self).2 henvelope.2,
        if_neg fun henvelope => (hkeys henvelope.1 _ List.mem_cons_self).1 henvelope.2]
      exact @Collects.step _ _ _ _
        (fun walk => reader.visitEntries walk (Record.entries fields)) _ _
        (visit_record value hfields.1 (by simp [Walk.push]))
        fun tensors => visitEntries_record fields hfields.2
          fun hroot field hfield => hkeys hroot field (List.mem_cons_of_mem _ hfield)

end

/-- The recorder's envelope around a record, its two entries in either order. -/
def envelope (metadataFirst : Bool) (metadata : Node) (record : Record) : Node :=
  .map (if metadataFirst then [(some "metadata", metadata), (some "item", record.node)]
    else [(some "item", record.node), (some "metadata", metadata)])

/-- The envelope is looked through. -/
theorem visit_envelope (metadataFirst : Bool) (metadata : Node) (record : Record) (walk : Walk)
    (hroot : walk.path = []) (hback : ∀ after, reader.visit walk record.node = .ok after →
      after.path = []) :
    reader.visit walk (envelope metadataFirst metadata record) =
      reader.visit walk record.node := by
  have hmetadata (walk : Walk) (hroot : walk.path = []) (rest : List (Option String × Node)) :
      reader.visitEntries walk ((some "metadata", metadata) :: rest) =
        reader.visitEntries walk rest := by
    rw [visitEntries, if_pos ⟨hroot, rfl⟩]
  have hitem (rest : List (Option String × Node)) :
      reader.visitEntries walk ((some "item", record.node) :: rest) =
        (reader.visit walk record.node >>= fun walk => reader.visitEntries walk rest) := by
    rw [visitEntries, if_neg (by simp), if_pos ⟨hroot, rfl⟩]
  cases metadataFirst with
  | false =>
      rw [envelope, if_neg (by simp), visit, hitem]
      · rcases hvisit : reader.visit walk record.node with error | after
        · rfl
        · exact hmetadata after (hback after hvisit) []
      · simp
  | true =>
      rw [envelope, if_pos rfl, visit, hmetadata walk hroot, hitem]
      · rcases reader.visit walk record.node with error | after
        · rfl
        · rfl
      · simp

/-- **The walk finds every parameter.** The walk over a module's record in its
envelope succeeds, and what it collects is the record's parameters, each once
and in document order, under the dotted path that leads to it. Behind any
subtree the path is back to what it was. -/
theorem visit_finds_params {record : Record} (hrecord : record.WellFormed reader)
    (hrooted : record.Rooted) (metadataFirst : Bool) (metadata : Node) :
    (∃ tensors,
      reader.visit ⟨[], []⟩ (envelope metadataFirst metadata record) = .ok ⟨[], tensors⟩ ∧
        tensors.map some = record.params.map fun param => reader.named param.1 param.2) ∧
    ∀ (subtree : Record) (walk : Walk), subtree.WellFormed reader →
      (walk.path = [] → subtree.Rooted) →
        ∃ after, reader.visit walk subtree.node = .ok after ∧ after.path = walk.path := by
  constructor
  · obtain ⟨tensors, hvisit, htensors⟩ :=
      @visit_record _ record ⟨[], []⟩ hrecord fun _ => hrooted
    refine ⟨tensors, ?_, htensors⟩
    rw [visit_envelope metadataFirst metadata record _ rfl fun after hafter => ?_, hvisit]
    · rfl
    · rw [hvisit] at hafter
      cases hafter
      rfl
  · intro subtree walk hsubtree hroot
    obtain ⟨tensors, hvisit, -⟩ := visit_record subtree hsubtree hroot
    exact ⟨_, hvisit, rfl⟩

/-- A reader of plain bytes, for a device of 32-bit floats. -/
def plainReader : LegacyReader where
  decodeUtf8 _ := none
  readTensor
    | .bytes bytes => some ⟨bytes, [bytes.length], .f16⟩
    | _ => none
  convertDtype data dtype := { data with dtype := dtype }
  floatDtype := .f32
  intDtype := .i32

/-- Two layers, the second of which has no parameter, and a constant. -/
def twoLayers : Record :=
  .module [("layers", .array [.module [("w", .parameter ⟨"7", .bytes [1, 2]⟩)], .module []]),
    ("heads", .constant (.int 2))]

theorem visit_finds_params_twoLayers :
    ∃ tensors, plainReader.visit ⟨[], []⟩ (envelope true .unit twoLayers) = .ok ⟨[], tensors⟩ ∧
      tensors.map some = [some ⟨⟨[1, 2], [2], .f32⟩, "layers.0.w", some 7⟩] :=
  (@visit_finds_params plainReader twoLayers
    ⟨by simp, ⟨⟨by simp, ⟨_, rfl, by simp⟩, trivial⟩, ⟨by simp, trivial⟩, trivial⟩, trivial,
      trivial⟩
    (by simp [twoLayers, Record.Rooted]) true .unit).1

end LegacyReader

end BurnLm.Llama

