import Dispatch.Json.Field
import Dispatch.Proofs.Json.Written
import Mathlib.Data.List.Nodup
/-!
# Derived codecs

What is relied on where a library derives the codec of a type from its declared fields
(`Codec.IsDerived`). A record is written as the object of the members that its fields do not
leave out; and an object of some of the fields' members, in whatever order, is read as the
record whose fields hold the values of their members, and without a member what then stands
for it.

The two sides of the declaration need not agree. A record is read back if whatever its fields
leave out is what a missing member stands for, and so is a record of which members were taken
out (`Codec.IsDerived.read?_of_keeping`).
-/
namespace Dispatch.Json

variable {R : Type} {fields : List (Field R)} {field : Field R} {record final : R}
  {members : List (String × Json)} {kept : String → Bool} {text : String}

/-- The members show that a field holds a value: there is a member with the form of the value,
or none and the value is what this stands for. -/
inductive Field.Shows (field : Field R) (members : List (String × Json)) (value : field.Holds) :
    Prop
  | member (fits : field.form.Fits value)
    (mem : (field.name, field.form.json value) ∈ members) : Shows field members value
  | missing (absent : field.name ∉ members.map Prod.fst)
    (value_eq : field.missing = some value) : Shows field members value

/-- Members of the fields, each at most once, that show what the record holds. -/
structure Presents (fields : List (Field R)) (members : List (String × Json)) (record : R) :
    Prop where
  nodup : (members.map Prod.fst).Nodup
  known : ∀ name ∈ members.map Prod.fst, name ∈ fields.map Field.name
  shows : ∀ field ∈ fields, field.Shows members (field.get record)

/-- What a library says of the codecs that it derives from declared fields. What is written is a
JSON text of the members that the fields do not leave out, in order. From any JSON text of an
object of members of the fields, the record is read that these present. -/
structure Codec.IsDerived (codec : Codec R) (fields : List (Field R)) : Prop where
  writes : ∀ record, (∀ field ∈ fields, field.form.Fits (field.get record)) →
    (Field.object fields record).IsTextOf (codec.write record)
  reads : ∀ {members record text}, Presents fields members record →
    (object members).IsTextOf text → codec.read? text = some record

namespace Presents

/-- Every member is that of a field and has the form of what it holds. -/
theorem exists_field (h : Presents fields members record) {member : String × Json}
    (hmember : member ∈ members) : ∃ field ∈ fields, field.form.Fits (field.get record) ∧
      member = (field.name, field.form.json (field.get record)) := by
  have hname := List.mem_map_of_mem (f := Prod.fst) hmember
  obtain ⟨field, hfield, hsame⟩ := List.mem_map.1 (h.known _ hname)
  cases h.shows field hfield with
  | member fits mem =>
    exact ⟨field, hfield, fits, List.inj_on_of_nodup_map h.nodup hmember mem hsame.symm⟩
  | missing absent _ => exact absurd (hsame ▸ hname) absent

/-- A field without member holds what a missing member stands for. -/
theorem missing_eq (h : Presents fields members record) (hfield : field ∈ fields)
    (habsent : field.name ∉ members.map Prod.fst) : field.missing = some (field.get record) := by
  cases h.shows field hfield with
  | member _ mem => exact absurd (List.mem_map_of_mem mem) habsent
  | missing _ value_eq => exact value_eq

end Presents

/-! ## Members taken out -/

/-- The value with those members alone whose names are kept. -/
def keeping (kept : String → Bool) : Json → Json
  | .object members => .object (members.filter fun member => kept member.1)
  | json => json

theorem keeping_true (json : Json) : json.keeping (fun _ => true) = json := by
  cases json <;> simp [keeping]

/-! ## Members of a record -/

theorem Field.mem_filterMap_member? {member : String × Json} :
    member ∈ fields.filterMap (Field.member? record) ↔ ∃ field ∈ fields,
      field.omits (field.get record) = false ∧
        member = (field.name, field.form.json (field.get record)) := by
  rw [List.mem_filterMap]
  constructor
  · rintro ⟨field, hfield, hmember⟩
    cases homits : field.omits (field.get record) <;> simp [Field.member?, homits] at hmember
    exact ⟨field, hfield, homits, hmember.symm⟩
  · rintro ⟨field, hfield, homits, rfl⟩
    exact ⟨field, hfield, by simp [Field.member?, homits]⟩

theorem Field.names_sublist (fields : List (Field R)) (record : R) :
    ((fields.filterMap (Field.member? record)).map Prod.fst).Sublist (fields.map Field.name) := by
  induction fields with
  | nil => exact .slnil
  | cons field fields ih =>
    rw [List.map_cons]
    cases homits : field.omits (field.get record) with
    | true =>
      rw [List.filterMap_cons_none (by simp [Field.member?, homits])]
      exact ih.cons _
    | false =>
      rw [List.filterMap_cons_some (b := (field.name, field.form.json (field.get record)))
        (by simp [Field.member?, homits])]
      exact ih.cons_cons _

/-- The members that are kept present the record that holds the same in the fields that are
kept, and in the others what a missing member stands for. -/
theorem presents_filter (hnames : (fields.map Field.name).Nodup)
    (hfits : ∀ field ∈ fields, field.form.Fits (field.get record))
    (hkept : ∀ field ∈ fields, kept field.name = true → field.get final = field.get record)
    (hleft : ∀ field ∈ fields, kept field.name = false ∨ field.omits (field.get record) = true →
      field.missing = some (field.get final)) :
    Presents fields ((fields.filterMap (Field.member? record)).filter fun member =>
      kept member.1) final := by
  have hsublist : (((fields.filterMap (Field.member? record)).filter fun member =>
      kept member.1).map Prod.fst).Sublist (fields.map Field.name) :=
    (List.filter_sublist.map _).trans (Field.names_sublist fields record)
  refine ⟨hnames.sublist hsublist, fun name hname => hsublist.subset hname, ?_⟩
  intro field hfield
  by_cases hthere : kept field.name = true ∧ field.omits (field.get record) = false
  · obtain ⟨hkeep, homits⟩ := hthere
    rw [hkept field hfield hkeep]
    refine .member (hfits field hfield) (List.mem_filter.2 ⟨?_, hkeep⟩)
    exact Field.mem_filterMap_member?.2 ⟨field, hfield, homits, rfl⟩
  · have hout : kept field.name = false ∨ field.omits (field.get record) = true := by
      rw [not_and_or] at hthere
      simpa using hthere
    refine .missing (fun hname => ?_) (hleft field hfield hout)
    obtain ⟨member, hmember, hsame⟩ := List.mem_map.1 hname
    obtain ⟨hmember, hkeep⟩ := List.mem_filter.1 hmember
    obtain ⟨other, hother, homits, rfl⟩ := Field.mem_filterMap_member?.1 hmember
    -- no two fields have one name, so the member is that of the field
    obtain rfl := List.inj_on_of_nodup_map hnames hother hfield hsame
    exact hthere ⟨hkeep, homits⟩

/-! ## Reading back -/

namespace Codec.IsDerived

variable {codec : Codec R}

theorem read?_of_keeping (hcodec : codec.IsDerived fields) (hnames : (fields.map Field.name).Nodup)
    (hfits : ∀ field ∈ fields, field.form.Fits (field.get record))
    (hkept : ∀ field ∈ fields, kept field.name = true → field.get final = field.get record)
    (hleft : ∀ field ∈ fields, kept field.name = false ∨ field.omits (field.get record) = true →
      field.missing = some (field.get final))
    (htext : ((Field.object fields record).keeping kept).IsTextOf text) :
    codec.read? text = some final :=
  hcodec.reads (presents_filter hnames hfits hkept hleft) htext

/-- With every member kept, the record itself is read. -/
theorem read?_of_isTextOf (hcodec : codec.IsDerived fields)
    (hnames : (fields.map Field.name).Nodup)
    (hfits : ∀ field ∈ fields, field.form.Fits (field.get record))
    (homits : ∀ field ∈ fields, field.omits (field.get record) = true →
      field.missing = some (field.get record))
    (htext : (Field.object fields record).IsTextOf text) : codec.read? text = some record := by
  rw [← keeping_true (Field.object fields record)] at htext
  refine hcodec.read?_of_keeping hnames hfits (fun _ _ _ => rfl) ?_ htext
  rintro field hfield (hdropped | hout)
  · cases hdropped
  · exact homits field hfield hout

end Codec.IsDerived

end Dispatch.Json
