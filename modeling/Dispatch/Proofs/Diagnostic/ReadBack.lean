import Dispatch.Codec
import Dispatch.Proofs.Json.Records
import Dispatch.Proofs.NameMap
/-!
# Errors are read back

The JSON form of an error leaves out what is absent, and a member that is not there stands for
what is absent. So whatever codec is derived from the fields of an error, an error is read
back from what is written of it, whichever of its input, its cursor and its details are there,
and details without any entry are not taken for none (`SyntaxError.read?_write`). The cursor
has to be one that 64 bits hold, as every offset into a text does.

The codec of the program is one of those (`SyntaxError.isDerived_codec`): it reads the members
of an error in any order.
-/
namespace Dispatch.SyntaxError

open Json (Reads ReadsMembers Presents)

variable {e : SyntaxError} {names : List String} {members : List (String × Json)}

theorem nodup_fields : (fields.map Json.Field.name).Nodup := by
  decide

theorem fits_fields (hcursor : ∀ n ∈ e.cursor, n < 2 ^ 64) :
    ∀ field ∈ fields, field.form.Fits (field.get e) := by
  simp [fields, Json.Field.plain, Json.Field.optional, Json.Form.orNull, Json.Form.string,
    Json.Form.size, Json.Form.table] at hcursor ⊢
  exact hcursor

/-- What is left out of an error is what a missing member stands for. -/
theorem missing_of_omits : ∀ field ∈ fields, field.omits (field.get e) = true →
    field.missing = some (field.get e) := by
  simp +contextual [fields, Json.Field.plain, Json.Field.optional]

/-! ## The codec of the program -/

namespace Draft

/-- What is seen of an error once the members with the given names are read. -/
def seen (e : SyntaxError) (names : List String) : Draft where
  id := if "id" ∈ names then some e.id else none
  message := if "message" ∈ names then some e.message else none
  input := if "input" ∈ names then some e.input else none
  cursor := if "cursor" ∈ names then some e.cursor else none
  details := if "context" ∈ names then some e.details else none

/-- Reading details adds them one after the other. -/
theorem readsMembers_details (made : NameMap String) (entries : List (String × String)) :
    ReadsMembers (fun (details : NameMap String) name rest => (Json.string? rest).map
      fun (value, after) => (details.insert name value, after)) made
      (entries.map fun (name, value) => (name, .string value))
      (entries.foldl (fun made e => made.insert e.1 e.2) made) := by
  induction entries generalizing made with
  | nil => exact .nil made
  | cons e entries ih =>
    obtain ⟨name, value⟩ := e
    exact .cons ((Json.reads_string value).map (made.insert name)) (ih _)

theorem reads_details (details : NameMap String) :
    Reads details? (Json.Form.table.json details) details := by
  refine ⟨fun {before text rest} hbefore hwritten hrest => ?_⟩
  have hmembers := readsMembers_details .empty details.entries
  rw [show details.entries.foldl _ NameMap.empty = details from details.ofList_entries] at hmembers
  obtain ⟨inside, rfl, hinside⟩ := Json.object?_reads hmembers hwritten
  rw [details?, List.cons_append, Json.expect?_append hbefore (by decide)]
  exact hinside rest

/-- A member that is read for the first time is seen afterwards. -/
theorem reads_member {field : Json.Field SyntaxError} (hfield : field ∈ fields)
    (hnew : field.name ∉ names) (hfits : field.form.Fits (field.get e)) :
    Reads (member? (seen e names) field.name) (field.form.json (field.get e))
      (seen e (field.name :: names)) := by
  simp only [fields, List.mem_cons, List.not_mem_nil, or_false] at hfield
  rcases hfield with rfl | rfl | rfl | rfl | rfl
  · have hnew : "id" ∉ names := hnew
    exact (Json.reads_string e.id).adds (fun v => { seen e names with id := some v })
      (fun cs => by simp [member?, seen, hnew]) (by simp [seen])
  · have hnew : "message" ∉ names := hnew
    exact (Json.reads_string e.message).adds (fun v => { seen e names with message := some v })
      (fun cs => by simp [member?, seen, hnew]) (by simp [seen])
  · have hnew : "input" ∉ names := hnew
    have hinput : Json.Form.string.orNull.Fits e.input := hfits
    have h := Json.reads_optional hinput (by simp [Json.Form.string]) fun s _ =>
      Json.reads_string s
    exact h.adds (fun v => { seen e names with input := some v })
      (fun cs => by simp [member?, seen, hnew]) (by simp [seen])
  · have hnew : "cursor" ∉ names := hnew
    have hplace : Json.Form.size.orNull.Fits e.cursor := hfits
    have h := Json.reads_optional hplace (by simp [Json.Form.size, Json.size]) fun n hn =>
      Json.reads_size hn
    exact h.adds (fun v => { seen e names with cursor := some v })
      (fun cs => by simp [member?, seen, hnew]) (by simp [seen])
  · have hnew : "context" ∉ names := hnew
    have hdetails : Json.Form.table.orNull.Fits e.details := hfits
    have h := Json.reads_optional hdetails (by simp [Json.Form.table]) fun map _ =>
      reads_details map
    exact h.adds (fun v => { seen e names with details := some v })
      (fun cs => by simp [member?, seen, hnew]) (by simp [seen])

/-- What is seen of all the members is the error that they present. -/
theorem finish?_seen (h : Presents fields members e)
    (hnames : ∀ name, name ∈ names ↔ name ∈ members.map Prod.fst) :
    (seen e names).finish? = some e := by
  have hmissing : ∀ field ∈ fields, field.name ∉ names →
      field.missing = some (field.get e) :=
    fun field hfield hname => h.missing_eq hfield (by rwa [← hnames])
  have hid : "id" ∈ names := by
    refine Decidable.byContradiction fun hname => ?_
    cases hmissing (.plain "id" .string SyntaxError.id) (by simp [fields]) hname
  have hmessage : "message" ∈ names := by
    refine Decidable.byContradiction fun hname => ?_
    cases hmissing (.plain "message" .string SyntaxError.message) (by simp [fields]) hname
  have hjoin : ∀ {α : Type} (name : String) (form : Json.Form α) (get : SyntaxError → Option α),
      .optional name form get ∈ fields →
        (if name ∈ names then some (get e) else none).join = get e := by
    intro α name form get hfield
    split
    · rfl
    · next hname => exact Option.some.inj (hmissing _ hfield hname)
  have hinput := hjoin "input" .string SyntaxError.input (by simp [fields])
  have hplace := hjoin "cursor" .size SyntaxError.cursor (by simp [fields])
  have hdetails := hjoin "context" .table SyntaxError.details (by simp [fields])
  simp only [finish?, seen, hid, hmessage, if_true, hinput, hplace, hdetails, Option.bind_eq_bind,
    Option.bind_some]

/-- The members of an error are read in whatever order they come. -/
theorem readsMembers (h : Presents fields members e) :
    ReadsMembers member? .empty members (seen e (members.map Prod.fst).reverse) :=
  h.readsMembers (seen e) fun _ _ hfield hnew hfits => reads_member hfield hnew hfits

end Draft

theorem reads_object (h : Presents fields members e) : Reads read? (.object members) e := by
  refine ⟨fun {before text rest} hbefore hwritten _ => ?_⟩
  obtain ⟨inside, rfl, hinside⟩ := Json.object?_reads (Draft.readsMembers h) hwritten
  have hopen : Json.skipSpace (before ++ ('\x7b' :: inside ++ rest)) =
      '\x7b' :: (inside ++ rest) := by
    rw [Json.skipSpace_append hbefore, List.cons_append, Json.skipSpace_cons (by decide)]
  have hexpect := Json.expect?_append Json.isSpaces_nil (c := '\x7b') (by decide) (inside ++ rest)
  rw [List.nil_append] at hexpect
  have hfinish : (Draft.seen e (members.map Prod.fst).reverse).finish? = some e :=
    Draft.finish?_seen h fun _ => List.mem_reverse
  rw [read?, hopen]
  split
  · next heq => exact absurd (List.cons.inj heq).1 (by decide)
  · simp only [hexpect, hinside, hfinish, Option.bind_eq_bind, Option.bind_some]

theorem isDerived_codec : codec.IsDerived fields where
  writes _ _ := Json.isTextOf_compact _
  reads h htext := Json.ofText?_of_reads (reads_object h) htext

/-! ## Any derived codec -/

/-- An error is read back from what is written of it, and from every other text of its JSON
form. -/
theorem read?_write {codec : Json.Codec SyntaxError} (hcodec : codec.IsDerived fields)
    (hcursor : ∀ n ∈ e.cursor, n < 2 ^ 64) :
    codec.read? (codec.write e) = some e ∧
      ∀ text, e.toJson.IsTextOf text → codec.read? text = some e := by
  have hread : ∀ text, e.toJson.IsTextOf text → codec.read? text = some e := fun text htext =>
    hcodec.read?_of_isTextOf nodup_fields (fits_fields hcursor) missing_of_omits htext
  exact ⟨hread _ (hcodec.writes e (fits_fields hcursor)), hread⟩

/-- An error whose text needs escapes, at the last offset there is, with details that have no
entry. -/
theorem read?_write_escaped : ∃ e : SyntaxError,
    (e.message = "né \"\\\n\x01" ∧ e.cursor = some (2 ^ 64 - 1) ∧ e.details = some .empty) ∧
    codec.IsDerived fields ∧ (∀ n ∈ e.cursor, n < 2 ^ 64) ∧
    codec.read? (codec.write e) = some e := by
  have hcursor : ∀ n ∈ some (2 ^ 64 - 1), n < 2 ^ 64 := by decide
  exact ⟨⟨"CMD1001", "né \"\\\n\x01", some "", some (2 ^ 64 - 1), some .empty⟩,
    ⟨rfl, rfl, rfl⟩, isDerived_codec, hcursor, (read?_write isDerived_codec hcursor).1⟩

end Dispatch.SyntaxError
