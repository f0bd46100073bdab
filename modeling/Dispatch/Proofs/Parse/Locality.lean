import Dispatch.Proofs.Parse.Step
import Mathlib.Data.List.Basic
/-!
# Parses are local

A parse goes down along children that are tried and follows redirects, and asks the tree for
nothing else. So two dispatchers with the same settings parse alike within a region of nodes
that is not left this way, if the same children are tried there (`AgreeWithin.parseAt_eq`).
-/
namespace Dispatch
variable {S E M : Type}

/-- The children tried are the same where a node and its children are. -/
theorem Tree.eligible_congr {t t' : Tree S E M} {id : Nat} (own : t'.node? id = t.node? id)
    (below : ∀ c ∈ t.childIds id, t'.node? c = t.node? c) (r : Reader) (source : S) :
    t'.eligible id r source = t.eligible id r source := by
  have hchildren : t'.childIds id = t.childIds id := by rw [childIds, own, childIds]
  rw [eligible_eq, eligible_eq, hchildren]
  exact List.filterMap_congr fun c hc => by rw [tried?, below c hc, tried?]

theorem Survey.ofAttempts_congr {attempt attempt' : Offspring S E M → Attempt S E M}
    {children : List (Offspring S E M)}
    (h : ∀ child ∈ children, attempt' child = attempt child) :
    ofAttempts children (fun child _ => attempt' child) =
      ofAttempts children fun child _ => attempt child := by
  induction children with
  | nil => rfl
  | cons child rest ih =>
    rw [ofAttempts, ofAttempts, h child List.mem_cons_self,
      ih fun other hother => h other (List.mem_cons_of_mem child hother)]

namespace Dispatcher

/-- Two dispatchers with the same settings do the same on behalf of a principal at the nodes
of a region, and neither the children tried there nor redirects lead out of it. -/
structure AgreeWithin (d d' : Dispatcher S E M) (source : S) (region : Nat → Prop) : Prop where
  config_eq : d'.config = d.config
  eligible : ∀ id, region id → ∀ r, d'.tree.eligible id r source = d.tree.eligible id r source
  children : ∀ id, region id → ∀ r, ∀ child ∈ d.tree.eligible id r source, region child.id
  redirects : ∀ id node target, region id → d.tree.node? id = some node →
    node.redirect = some target → region target

namespace AgreeWithin
variable {d d' : Dispatcher S E M} {source : S} {region : Nat → Prop} {node : Nat} {r : Reader}
  {c : Context S E M} {child : Offspring S E M}

/-- Trying a child comes to the same if the parse below it or behind its redirect does. -/
theorem trial_eq (h : d.AgreeWithin d' source region) (hsource : c.source = source)
    (below : ∀ next (after : Reader) (visited : Context S E M),
      d.room next visited.redirectDepth < d.room node c.redirectDepth → region next →
        visited.source = source → d'.parseAt next after visited = d.parseAt next after visited)
    (inside : region child.id) (mem : child ∈ d.tree.eligible node r c.source) :
    d'.trial c r child = d.trial c r child := by
  cases htake : child.label.take c r with
  | error error => rw [trial_of_take_error htake, trial_of_take_error htake]
  | ok taken =>
    cases hcut : taken.isCutOff with
    | true => rw [trial_of_isCutOff htake hcut, trial_of_isCutOff htake hcut]
    | false =>
      rw [trial_of_matches ⟨htake, hcut⟩, trial_of_matches ⟨htake, hcut⟩, h.config_eq]
      by_cases more : taken.after.canRead = true
      · have hvisit : (child.visit c taken).source = source :=
          (child.visit_source c taken).trans hsource
        rw [if_pos more, if_pos more]
        cases hredirect : child.node.redirect with
        | some target =>
          dsimp only
          split
          · rfl
          · next hlimit =>
            have hinside : region target :=
              h.redirects child.id child.node target inside (Tree.mem_eligible_iff.1 mem).2.1
                hredirect
            rw [below target _ _ (room_entrance (Nat.not_lt.1 hlimit) taken) hinside hvisit]
        | none =>
          dsimp only
          rw [below child.id _ _ (room_visit mem taken) inside hvisit]
      · rw [if_neg more, if_neg more]

/-- A parse at a node where the same children are tried comes to the same if those that go on
within the region with less room do. -/
theorem parseAt_eq_of_below (h : d.AgreeWithin d' source region) (hsource : c.source = source)
    (below : ∀ next (after : Reader) (visited : Context S E M),
      d.room next visited.redirectDepth < d.room node c.redirectDepth → region next →
        visited.source = source → d'.parseAt next after visited = d.parseAt next after visited)
    (same : d'.tree.eligible node r source = d.tree.eligible node r source)
    (inside : ∀ child ∈ d.tree.eligible node r source, region child.id) :
    d'.parseAt node r c = d.parseAt node r c := by
  subst hsource
  have hsurvey : d'.survey node r c = d.survey node r c := by
    rw [survey, survey, same]
    refine Survey.ofAttempts_congr fun child hchild => ?_
    exact h.trial_eq rfl below (inside child hchild) hchild
  rw [Dispatcher.parseAt_eq, Dispatcher.parseAt_eq, hsurvey]

/-- Within the region, parses come to the same. -/
theorem parseAt_eq (h : d.AgreeWithin d' source region) (hnode : region node)
    (hsource : c.source = source) : d'.parseAt node r c = d.parseAt node r c := by
  induction hroom : d.room node c.redirectDepth using Nat.strongRecOn generalizing node r c with
  | ind room ih =>
    subst hroom
    refine h.parseAt_eq_of_below hsource ?_ (h.eligible node hnode r) (h.children node hnode r)
    intro next after visited hless hnext hvisited
    exact ih _ hless hnext hvisited rfl

/-- So do lines of which the first word leads into the region. -/
theorem parse_eq (h : d.AgreeWithin d' source region) {line : String}
    (same : d'.tree.eligible Tree.root (.ofString line) source =
      d.tree.eligible Tree.root (.ofString line) source)
    (inside : ∀ child ∈ d.tree.eligible Tree.root (.ofString line) source, region child.id) :
    d'.parse line source = d.parse line source :=
  h.parseAt_eq_of_below rfl (fun _ _ _ _ hnext hvisited => h.parseAt_eq hnext hvisited) same inside

end AgreeWithin
end Dispatcher
end Dispatch
