import Dispatch.Principal
import Dispatch.Proofs.NameMap
/-!
# What a grant covers

A principal is asked for a capability by looking at the dots of what is asked for: one of the
parts in front of them may have been granted. Seen from the grants, each covers itself and
every name that continues it behind a dot (`Principal.Covers`). The two views are the same for
any text, since the parts in front of the dots are the names that it continues
(`Principal.mem_properHeads`). What a principal holds is then read off the names it was
granted on its way (`Principal.Built`), and it can only grow.
-/
namespace Dispatch.Principal

variable {p : Principal} {granted : List String}

/-- A grant covers a capability: it is the capability, or the capability continues it behind a
dot. -/
def Covers (grant capability : String) : Prop :=
  capability = grant ∨ ∃ rest, capability = grant ++ "." ++ rest

/-- How a principal comes about: by its name or as an operator, and then by one grant after
the other. `granted` lists the grants, the latest first. -/
inductive Built : (granted : List String) → Principal → Prop
  | named (name : String) : Built [] (named name)
  | operator (name : String) : Built ["*"] (operator name)
  | grant {granted : List String} {p : Principal} (built : Built granted p) (capability : String) :
    Built (capability :: granted) (p.grant capability)

/-! ## Parts in front of dots -/

theorem mem_properHeads_cons {before cs : List Char} {c : Char} {head : String} :
    head ∈ properHeads before (c :: cs) ↔
      (c = '.' ∧ head = String.ofList before.reverse) ∨ head ∈ properHeads (c :: before) cs := by
  rw [properHeads]
  split
  · next hdot => rw [List.mem_cons, and_iff_right hdot]
  · next hother => rw [or_iff_right fun h => hother h.1]

theorem mem_properHeads {before cs : List Char} {head : String} :
    head ∈ properHeads before cs ↔
      ∃ front rest, cs = front ++ '.' :: rest ∧ head = String.ofList (before.reverse ++ front) := by
  induction cs generalizing before with
  | nil => simp [properHeads]
  | cons c cs ih =>
    rw [mem_properHeads_cons, ih]
    constructor
    · rintro (⟨rfl, rfl⟩ | ⟨front, rest, rfl, rfl⟩)
      · exact ⟨[], cs, rfl, by rw [List.append_nil]⟩
      · exact ⟨c :: front, rest, rfl, by simp⟩
    · rintro ⟨front, rest, hcs, rfl⟩
      cases front with
      | nil =>
        obtain ⟨rfl, rfl⟩ := List.cons.inj hcs
        exact .inl ⟨rfl, by rw [List.append_nil]⟩
      | cons d front =>
        obtain ⟨rfl, rfl⟩ := List.cons.inj hcs
        exact .inr ⟨front, rest, rfl, by simp⟩

/-- The parts of a name in front of its dots are the names that it continues. -/
theorem mem_properHeads_toList {head capability : String} :
    head ∈ properHeads [] capability.toList ↔ ∃ rest, capability = head ++ "." ++ rest := by
  rw [mem_properHeads]
  constructor
  · rintro ⟨front, rest, hcapability, rfl⟩
    refine ⟨String.ofList rest, String.toList_inj.1 ?_⟩
    simp [hcapability]
  · rintro ⟨rest, rfl⟩
    exact ⟨head.toList, rest.toList, by simp, by simp⟩

/-! ## What is held -/

/-- A capability is held if everything was granted or a grant covers it. -/
theorem hasCapability_iff {capability : String} :
    p.hasCapability capability = true ↔ p.granted.contains everything = true ∨
      ∃ grant, p.granted.contains grant = true ∧ Covers grant capability := by
  simp only [hasCapability, Bool.or_eq_true, List.any_eq_true, mem_properHeads_toList, Covers]
  constructor
  · rintro ((hall | hself) | ⟨head, hrest, hhead⟩)
    · exact .inl hall
    · exact .inr ⟨capability, hself, .inl rfl⟩
    · exact .inr ⟨head, hhead, .inr hrest⟩
  · rintro (hall | ⟨grant, hgrant, rfl | hrest⟩)
    · exact .inl (.inl hall)
    · exact .inl (.inr hgrant)
    · exact .inr ⟨grant, hrest, hgrant⟩

theorem contains_grant {capability other : String} :
    (p.grant capability).granted.contains other = true ↔
      other = capability ∨ p.granted.contains other = true :=
  NameMap.contains_insert ..

theorem Built.contains_iff (built : Built granted p) {capability : String} :
    p.granted.contains capability = true ↔ capability ∈ granted := by
  induction built with
  | named name => simp [Principal.named]
  | operator name => simp [Principal.operator, contains_grant, Principal.named, everything]
  | grant built other ih => rw [contains_grant, ih, List.mem_cons]

/-- What is covered stays covered behind a further dot. -/
theorem Covers.below {grant capability : String} (h : Covers grant capability) (rest : String) :
    Covers grant (capability ++ "." ++ rest) := by
  rcases h with rfl | ⟨between, rfl⟩
  · exact .inr ⟨rest, rfl⟩
  · exact .inr ⟨between ++ "." ++ rest, by simp only [String.append_assoc]⟩

theorem hasCapability_grant {capability : String} (other : String)
    (h : p.hasCapability capability = true) :
    (p.grant other).hasCapability capability = true := by
  simp only [hasCapability_iff, contains_grant] at h ⊢
  rcases h with hall | ⟨grant, hgrant, hcovers⟩
  · exact .inl (.inr hall)
  · exact .inr ⟨grant, .inr hgrant, hcovers⟩

/-- Further grants take nothing away. -/
theorem hasCapability_grantAll {capability : String} (more : List String)
    (h : p.hasCapability capability = true) :
    (p.grantAll more).hasCapability capability = true := by
  induction more generalizing p with
  | nil => exact h
  | cons other more ih => exact ih (hasCapability_grant other h)

theorem hasCapability_below {capability : String} (rest : String)
    (h : p.hasCapability capability = true) :
    p.hasCapability (capability ++ "." ++ rest) = true := by
  rw [hasCapability_iff] at h ⊢
  rcases h with hall | ⟨grant, hgrant, hcovers⟩
  · exact .inl hall
  · exact .inr ⟨grant, hgrant, hcovers.below rest⟩

/-- A principal holds a capability exactly if it was granted `*`, the capability itself, or a
name that the capability continues behind a dot. So further grants take nothing away, and
whoever holds a capability holds all that continue it behind a dot. -/
theorem hasCapability_of_built (built : Built granted p) :
    (∀ capability, p.hasCapability capability = true ↔
      "*" ∈ granted ∨ ∃ grant ∈ granted,
        capability = grant ∨ ∃ rest, capability = grant ++ "." ++ rest) ∧
    (∀ capability more, p.hasCapability capability = true →
      (p.grantAll more).hasCapability capability = true) ∧
    ∀ capability rest, p.hasCapability capability = true →
      p.hasCapability (capability ++ "." ++ rest) = true := by
  refine ⟨fun capability => ?_, fun _ more h => hasCapability_grantAll more h,
    fun _ rest h => hasCapability_below rest h⟩
  simp only [hasCapability_iff, built.contains_iff, everything, Covers]

/-- Dots in front, one after the other and at the end make empty parts like any other. -/
theorem hasCapability_dotted : Built [".é"] ((named "alex").grant ".é") ∧
    ((named "alex").grant ".é").hasCapability ".é..tp." = true ∧
    ((named "alex").grant ".é").hasCapability ".éa" = false := by
  have built : Built [".é"] ((named "alex").grant ".é") := .grant (.named "alex") ".é"
  obtain ⟨hiff, -, -⟩ := hasCapability_of_built built
  refine ⟨built, (hiff _).2 (.inr ⟨".é", List.mem_singleton_self _, .inr ⟨".tp.", by decide⟩⟩), ?_⟩
  decide

end Dispatch.Principal
