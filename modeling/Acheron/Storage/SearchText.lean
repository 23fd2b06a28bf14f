import Acheron.Lib.Token
import Acheron.Lib.Walk
import Acheron.Storage.Elastic

/-!
# The text of the metadata

The `flattened` mapping of `metadata` cannot be searched by term, so `bulk_index` stores the leaf
values once more, as one analyzed text: `_metadata_text` walks the value and joins the texts of its
leaves with blanks. A leaf may be empty, or hold whitespace itself, so that the parts cannot be read
back from the text; its tokens can. `metadataText_tokens` says that they are the tokens of the
leaves, leaf by leaf in the order of the walk.
-/

namespace Acheron

/-! ## Tokens -/

/-- The whitespace of `str.split`. -/
def isPySpace (c : Char) : Bool :=
  let n := c.toNat
  (9 ≤ n && n ≤ 13) || (28 ≤ n && n ≤ 32) || n = 0x85 || n = 0xA0 || n = 0x1680 ||
    (0x2000 ≤ n && n ≤ 0x200A) || n = 0x2028 || n = 0x2029 || n = 0x202F || n = 0x205F || n = 0x3000

/-- `text.split()`: the tokens between runs of whitespace. -/
def pySplit (text : String) : List String :=
  (Text.words isPySpace text.toList).map String.ofList

/-- Joining with blanks neither fuses nor loses a token. -/
theorem pySplit_intercalate (parts : List String) :
    pySplit (String.intercalate " " parts) = parts.flatMap pySplit := by
  have htext : (String.intercalate " " parts).toList
      = [' '].intercalate (parts.map String.toList) := String.toList_intercalate
  rw [pySplit, htext, Text.words_intercalate (p := isPySpace) (by decide), List.flatMap_map,
    List.map_flatMap]
  rfl

/-! ## The walk -/

namespace Json

mutual

/-- `_walk`, with the `parts` it appends to. -/
def walk : Json → List String → List String
  | .obj members, parts => walkMembers members parts
  | .arr items, parts => walkItems items parts
  | v, parts => parts ++ v.leafText.toList

/-- The loop of `_walk` over the items of a list. -/
def walkItems : List Json → List String → List String
  | [], parts => parts
  | v :: vs, parts => walkItems vs (v.walk parts)

/-- The loop of `_walk` over `value.values()`. -/
def walkMembers : List (String × Json) → List String → List String
  | [], parts => parts
  | (_, v) :: ms, parts => walkMembers ms (v.walk parts)

end

mutual

/-- The loops append the leaves. -/
theorem walk_eq : ∀ (v : Json) (parts : List String), v.walk parts = parts ++ v.leaves
  | .null, _ | .bool _, _ | .int _, _ | .float _, _ | .nonFinite _, _ | .str _, _ => rfl
  | .arr items, parts => walkItems_eq items parts
  | .obj members, parts => walkMembers_eq members parts

theorem walkItems_eq : ∀ (vs : List Json) (parts : List String),
    walkItems vs parts = parts ++ itemsLeaves vs
  | [], parts => (List.append_nil parts).symm
  | v :: vs, parts => by
    rw [walkItems, walk_eq v, walkItems_eq vs, itemsLeaves, List.append_assoc]

theorem walkMembers_eq : ∀ (ms : List (String × Json)) (parts : List String),
    walkMembers ms parts = parts ++ membersLeaves ms
  | [], parts => (List.append_nil parts).symm
  | (_, v) :: ms, parts => by
    rw [walkMembers, walk_eq v, walkMembers_eq ms, membersLeaves, List.append_assoc]

end

/-- The values directly inside a value: the items of a list, the values of a `dict`. -/
def children : Json → List Json
  | .arr items => items
  | .obj members => members.map Prod.snd
  | _ => []

theorem sizeOf_lt_of_mem_children {c v : Json} (h : c ∈ v.children) : sizeOf c < sizeOf v := by
  cases v with
  | arr items =>
    have hlt : sizeOf c < sizeOf items := List.sizeOf_lt_of_mem h
    simp only [Json.arr.sizeOf_spec]
    omega
  | obj members =>
    obtain ⟨⟨k, v⟩, hm, rfl⟩ := List.mem_map.mp h
    have hlt := List.sizeOf_lt_of_mem hm
    simp only [Json.obj.sizeOf_spec, Prod.mk.sizeOf_spec] at hlt ⊢
    omega
  | null | bool _ | int _ | float _ | nonFinite _ | str _ => exact absurd h List.not_mem_nil

theorem children_wellFounded : WellFounded fun c v : Json ↦ c ∈ v.children :=
  Subrelation.wf sizeOf_lt_of_mem_children (measure sizeOf).wf

theorem itemsLeaves_eq (vs : List Json) : itemsLeaves vs = vs.flatMap leaves := by
  induction vs with
  | nil => rfl
  | cons v vs ih => rw [itemsLeaves, ih, List.flatMap_cons]

theorem membersLeaves_eq (ms : List (String × Json)) :
    membersLeaves ms = (ms.map Prod.snd).flatMap leaves := by
  induction ms with
  | nil => rfl
  | cons m ms ih => rw [membersLeaves, ih, List.map_cons, List.flatMap_cons]

/-- A value is a leaf or has children. -/
theorem leaves_eq (v : Json) : v.leaves = v.leafText.toList ++ v.children.flatMap leaves := by
  cases v with
  | arr items => exact itemsLeaves_eq items
  | obj members => exact membersLeaves_eq members
  | null | bool _ | int _ | float _ | nonFinite _ | str _ => exact (List.append_nil _).symm

end Json

/-! ## The text -/

/-- `_metadata_text` as the source computes it. -/
theorem metadataText_eq_walk (metadata : Metadata) :
    metadataText metadata = String.intercalate " " ((Json.obj metadata.members).walk []) := by
  rw [Json.walk_eq, List.nil_append, metadataText]

/-- **No leaf is lost.** Split at whitespace, the text is the tokens of the leaves, each occurrence
of a leaf at its place in the order of the walk. -/
theorem metadataText_tokens (metadata : Metadata) :
    ∃ ls : List (List ℕ × String),
      Trees.Enumerates Json.children Json.leafText (.obj metadata.members) ls ∧
      pySplit (metadataText metadata) = ls.flatMap fun l ↦ pySplit l.2 := by
  obtain ⟨ls, hls, hleaves⟩ :=
    Trees.exists_enumerates Json.children_wellFounded Json.leaves_eq (.obj metadata.members)
  refine ⟨ls, hls, ?_⟩
  rw [metadataText, pySplit_intercalate, ← hleaves, List.flatMap_map]

end Acheron
