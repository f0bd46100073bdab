import Dispatch.Codec
import Dispatch.Proofs.Json.Records
/-!
# Settings are read back

The JSON form of settings may have any of its members taken out: whatever codec is derived
from the fields of settings, what is left is read as the settings with the defaults in the
places of the others (`Config.keeping`), and is then checked as they are. With every member
kept, settings are read back if they are valid, and are refused with the complaint of the
check if they are not (`Config.load_write`). Numbers have to be ones that 64 bits hold.

The codec of the program is one of those (`Config.isDerived_codec`).
-/
namespace Dispatch.Config

open Json (Reads ReadsMembers Presents)

variable {c : Config} {kept : String → Bool} {names : List String}
  {members : List (String × Json)}

/-! ## The check -/

/-- Loading the text comes down to the check of the settings: they are what it gives if they
are valid, and it fails with the complaint about one of them if they are not. -/
structure LoadsAs (read? : String → Option Config) (text : String) (c : Config) : Prop where
  valid : c.validate = .ok () → load read? text = .ok c
  invalid : ∀ error, c.validate = .error error → load read? text = .error error ∧
    ∃ field reason, error.complaint? = some (field, reason)

/-- The check complains about a setting, and never about the form of a text. -/
theorem exists_complaint {error : ConfigError} (h : c.validate = .error error) :
    ∃ field reason, error.complaint? = some (field, reason) := by
  cases error with
  | malformed =>
    simp only [validate] at h
    repeat' split at h
    all_goals cases h
  | noRedirects | badSeparator | aliasNotReferenced | noSuggestions => exact ⟨_, _, rfl⟩

theorem loadsAs_of_read? {read? : String → Option Config} {text : String}
    (h : read? text = some c) : LoadsAs read? text c := by
  refine ⟨fun hvalid => ?_, fun error hinvalid => ⟨?_, exists_complaint hinvalid⟩⟩
  · simp only [load, h, hvalid]
    rfl
  · simp only [load, h, hinvalid]
    rfl

/-! ## Settings at their defaults -/

/-- The settings whose names are kept, and the defaults for the others. -/
def keeping (kept : String → Bool) (c : Config) : Config where
  maxRedirectDepth :=
    if kept "max_redirect_depth" then c.maxRedirectDepth else ({} : Config).maxRedirectDepth
  namespaceSeparator :=
    if kept "namespace_separator" then c.namespaceSeparator else ({} : Config).namespaceSeparator
  permissionTemplate :=
    if kept "permission_template" then c.permissionTemplate else ({} : Config).permissionTemplate
  suggestionLimit :=
    if kept "suggestion_limit" then c.suggestionLimit else ({} : Config).suggestionLimit

theorem nodup_fields : (fields.map Json.Field.name).Nodup := by
  decide

theorem fits_fields (hdepth : c.maxRedirectDepth < 2 ^ 64)
    (hlimit : ∀ n ∈ c.suggestionLimit, n < 2 ^ 64) :
    ∀ field ∈ fields, field.form.Fits (field.get c) := by
  simp [fields, Json.Field.plain, Json.Field.optional, Json.Field.withDefault, Json.Form.orNull,
    Json.Form.string, Json.Form.size] at hdepth hlimit ⊢
  exact ⟨hdepth, hlimit⟩

theorem get_keeping (kept : String → Bool) (c : Config) : ∀ field ∈ fields,
    field.get (c.keeping kept) = if kept field.name then field.get c else field.get {} := by
  simp [fields, Json.Field.plain, Json.Field.optional, Json.Field.withDefault, keeping]

theorem missing_fields : ∀ field ∈ fields, field.missing = some (field.get {}) := by
  simp [fields, Json.Field.withDefault]

/-- What settings leave out is the default. -/
theorem get_of_omits : ∀ field ∈ fields, field.omits (field.get c) = true →
    field.get c = field.get {} := by
  simp [fields, Json.Field.plain, Json.Field.optional, Json.Field.withDefault]

theorem missing_keeping (kept : String → Bool) (c : Config) : ∀ field ∈ fields,
    kept field.name = false ∨ field.omits (field.get c) = true →
      field.missing = some (field.get (c.keeping kept)) := by
  intro field hfield hout
  rw [missing_fields field hfield, get_keeping kept c field hfield]
  split
  · next hkept =>
    have homits := hout.resolve_left (by simp [hkept])
    rw [get_of_omits field hfield homits]
  · rfl

/-! ## The codec of the program -/

namespace Draft

/-- What is seen of settings once the members with the given names are read. -/
def seen (c : Config) (names : List String) : Draft where
  maxRedirectDepth := if "max_redirect_depth" ∈ names then some c.maxRedirectDepth else none
  namespaceSeparator := if "namespace_separator" ∈ names then some c.namespaceSeparator else none
  permissionTemplate := if "permission_template" ∈ names then some c.permissionTemplate else none
  suggestionLimit := if "suggestion_limit" ∈ names then some c.suggestionLimit else none

/-- A member that is read for the first time is seen afterwards. -/
theorem reads_member {field : Json.Field Config} (hfield : field ∈ fields)
    (hnew : field.name ∉ names) (hfits : field.form.Fits (field.get c)) :
    Reads (member? (seen c names) field.name) (field.form.json (field.get c))
      (seen c (field.name :: names)) := by
  simp only [fields, List.map_cons, List.map_nil, List.mem_cons, List.not_mem_nil,
    or_false] at hfield
  rcases hfield with rfl | rfl | rfl | rfl
  · have hnew : "max_redirect_depth" ∉ names := hnew
    have hdepth : c.maxRedirectDepth < 2 ^ 64 := hfits
    exact (Json.reads_size hdepth).adds (fun v => { seen c names with maxRedirectDepth := some v })
      (fun cs => by simp [member?, seen, hnew]) (by simp [seen])
  · have hnew : "namespace_separator" ∉ names := hnew
    exact (Json.reads_string c.namespaceSeparator).adds
      (fun v => { seen c names with namespaceSeparator := some v })
      (fun cs => by simp [member?, seen, hnew]) (by simp [seen])
  · have hnew : "permission_template" ∉ names := hnew
    exact (Json.reads_string c.permissionTemplate).adds
      (fun v => { seen c names with permissionTemplate := some v })
      (fun cs => by simp [member?, seen, hnew]) (by simp [seen])
  · have hnew : "suggestion_limit" ∉ names := hnew
    have hlimit : Json.Form.size.orNull.Fits c.suggestionLimit := hfits
    have h := Json.reads_optional hlimit (by simp [Json.Form.size, Json.size]) fun n hn =>
      Json.reads_size hn
    exact h.adds (fun v => { seen c names with suggestionLimit := some v })
      (fun cs => by simp [member?, seen, hnew]) (by simp [seen])

/-- What is seen of all the members makes the settings that they present. -/
theorem finish_seen (h : Presents fields members c)
    (hnames : ∀ name, name ∈ names ↔ name ∈ members.map Prod.fst) :
    (seen c names).finish = c := by
  have hmissing : ∀ field ∈ fields, field.name ∉ names → field.get {} = field.get c := by
    intro field hfield hname
    have hthere := h.missing_eq hfield (by rwa [← hnames])
    rw [missing_fields field hfield] at hthere
    exact Option.some.inj hthere
  have hgetD : ∀ {α : Type} (name : String) (form : Json.Form α) (get : Config → α),
      (Json.Field.plain name form get).withDefault {} ∈ fields →
        (if name ∈ names then some (get c) else none).getD (get {}) = get c := by
    intro α name form get hfield
    split
    · rfl
    · next hname => exact hmissing _ hfield hname
  have hlimit : (if "suggestion_limit" ∈ names then some c.suggestionLimit else none).join =
      c.suggestionLimit := by
    split
    · rfl
    · next hname =>
      exact hmissing ((Json.Field.optional "suggestion_limit" .size
        Config.suggestionLimit).withDefault {}) (by simp [fields]) hname
  have hdepth := hgetD "max_redirect_depth" .size Config.maxRedirectDepth (by simp [fields])
  have hseparator := hgetD "namespace_separator" .string Config.namespaceSeparator
    (by simp [fields])
  have htemplate := hgetD "permission_template" .string Config.permissionTemplate
    (by simp [fields])
  simp only [finish, seen, hdepth, hseparator, htemplate, hlimit]

/-- The members of settings are read in whatever order they come. -/
theorem readsMembers (h : Presents fields members c) :
    ReadsMembers member? .empty members (seen c (members.map Prod.fst).reverse) :=
  h.readsMembers (seen c) fun _ _ hfield hnew hfits => reads_member hfield hnew hfits

end Draft

theorem isDerived_codec : codec.IsDerived fields where
  writes _ _ := Json.isTextOf_compact _
  reads h htext := by
    simp only [codec, Json.ofText?_of_reads (Json.reads_record (Draft.readsMembers h)) htext,
      Option.map_some, Draft.finish_seen h fun _ => List.mem_reverse]

/-! ## Any derived codec -/

/-- Settings load from what is written of them, and from every other text of their JSON form,
as themselves; and with any of its members taken out as those of them that are kept. -/
theorem load_write {codec : Json.Codec Config} (hcodec : codec.IsDerived fields)
    (hdepth : c.maxRedirectDepth < 2 ^ 64) (hlimit : ∀ n ∈ c.suggestionLimit, n < 2 ^ 64) :
    LoadsAs codec.read? (codec.write c) c ∧
      (∀ text, c.toJson.IsTextOf text → LoadsAs codec.read? text c) ∧
      ∀ kept text, (c.toJson.keeping kept).IsTextOf text →
        LoadsAs codec.read? text (c.keeping kept) := by
  have hfits := fits_fields hdepth hlimit
  have hkept : ∀ kept text, (c.toJson.keeping kept).IsTextOf text →
      LoadsAs codec.read? text (c.keeping kept) := by
    intro kept text htext
    refine loadsAs_of_read? (hcodec.read?_of_keeping nodup_fields hfits ?_
      (missing_keeping kept c) htext)
    intro field hfield hkeep
    rw [get_keeping kept c field hfield, if_pos hkeep]
  have hall : ∀ text, c.toJson.IsTextOf text → LoadsAs codec.read? text c := by
    intro text htext
    have heverything : c.toJson.keeping (fun _ => true) = c.toJson := Json.keeping_true _
    exact hkept (fun _ => true) text (by rwa [heverything])
  exact ⟨hall _ (hcodec.writes c hfits), hall, hkept⟩

/-- With the separator taken out, settings whose own separator is refused load with the
default one. -/
theorem load_write_separator : ∃ c : Config,
    (c.maxRedirectDepth = 2 ^ 64 - 1 ∧ c.namespaceSeparator = "" ∧
      c.permissionTemplate = "\"é\" \\ {alias}" ∧ c.suggestionLimit = some 1) ∧
    codec.IsDerived fields ∧ c.maxRedirectDepth < 2 ^ 64 ∧
    (∀ n ∈ c.suggestionLimit, n < 2 ^ 64) ∧
    load codec.read? (codec.write c) = .error .badSeparator ∧
    load codec.read? (c.toJson.keeping (· != "namespace_separator")).pretty =
      .ok { c with namespaceSeparator := "." } := by
  let c : Config := ⟨2 ^ 64 - 1, "", "\"é\" \\ {alias}", some 1⟩
  have hdepth : c.maxRedirectDepth < 2 ^ 64 := by decide
  have hlimit : ∀ n ∈ c.suggestionLimit, n < 2 ^ 64 := by decide
  obtain ⟨hwritten, -, hkept⟩ := load_write isDerived_codec hdepth hlimit
  have hrefused : c.validate = .error .badSeparator := by decide
  have haccepted : (c.keeping (· != "namespace_separator")).validate = .ok () := by decide
  exact ⟨c, ⟨rfl, rfl, rfl, rfl⟩, isDerived_codec, hdepth, hlimit,
    (hwritten.invalid _ hrefused).1, (hkept _ _ (Json.isTextOf_pretty _)).valid haccepted⟩

end Dispatch.Config
