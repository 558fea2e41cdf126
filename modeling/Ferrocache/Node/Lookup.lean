import Ferrocache.Index.Texts
import Ferrocache.Node.Acknowledged
import Ferrocache.Server.Request

/-!
# A query finds what was inserted

An insert that was answered `Ok` because it created an entry is found by every
later query with the same text for the same model, scope and conversation: by its
text, so that neither the embedding, the threshold nor the state of the graph
matter.  In between, other entries may come and go, be evicted, expire or be
rebuilt into a new graph.  What ends it is something that is asked to remove the
entry, or another insert with the same text into the same namespace.
-/

namespace Ferrocache.Node

section Lookup

variable [Platform] {cfg : NodeConfig} {n : Node} {m k u : String}

/-- The next line does not add another entry with the text to the namespace. -/
def Unrivalled (m k u : String) (n : Node) : Action → Prop
  | .apply => ∀ line lines compact, n.phase = .applying (line :: lines) compact →
      line.tombstone = false → line.modelId = m → normalizeQueryText line.queryText = k →
        line.uuid = u
  | _ => True

theorem act_keepsTexts (wf : n.index.WellFormed) {a : Action} (admissible : n.Admissible cfg a)
    (other : a ≠ .apply) (alive : crashes a = false) :
    SemanticIndex.KeepsTexts n.index (n.act cfg a).index := by
  have quiet : ∀ {a : Action}, changesIndex a = false →
      SemanticIndex.KeepsTexts n.index (n.act cfg a).index := by
    intro a untouched
    rw [act_index_eq untouched]
    exact .refl _
  cases a with
  | submit entry => exact quiet rfl
  | requestCompact => exact quiet rfl
  | lookupDelete uuid => exact quiet rfl
  | removeDelete i =>
      change SemanticIndex.KeepsTexts n.index (n.removeDelete i).index
      unfold Node.removeDelete
      cases n.deleting[i]? with
      | none => exact .refl _
      | some pair => exact .removeByUuid wf pair.1
  | invalidate order embedding threshold modelId now =>
      exact .invalidateSimilar wf order embedding threshold modelId now
  | reap expireOrder now rebuildOrder pruneOrder =>
      obtain ⟨-, expires, rebuilds, prunes⟩ := admissible
      have removed := SemanticIndex.Removed.collectExpired wf expires.1 now
      have expired := SemanticIndex.KeepsTexts.collectExpired wf expires.1 now
      have rebuilt := SemanticIndex.KeepsTexts.rebuildDirtyNamespaces removed.wellFormed rebuilds
      exact (expired.trans rebuilt).trans (.pruneEmptyNamespaces prunes)
  | access modelId internalId now => exact .recordAccess wf modelId internalId now
  | send i => exact quiet rfl
  | collect size => exact quiet rfl
  | write outcome => exact quiet rfl
  | acquire => exact quiet rfl
  | apply => exact absurd rfl other
  | evict order rebuildOrder =>
      change SemanticIndex.KeepsTexts n.index (n.evict cfg order rebuildOrder).index
      unfold Node.evict
      cases phase : n.phase with
      | flushed compact =>
          dsimp only
          cases capped : cfg.hnsw.maxEntriesPerNamespace with
          | none => exact .refl _
          | some maxEntries =>
              obtain ⟨iter, visits⟩ := admissible maxEntries capped
              have removed := SemanticIndex.Removed.evictToCap wf iter maxEntries
              have evicted := SemanticIndex.KeepsTexts.evictToCap wf iter maxEntries
              exact evicted.trans (.rebuildDirtyNamespaces removed.wellFormed visits)
      | _ => exact .refl _
  | writeTombstones outcome => exact quiet rfl
  | settle order outcome => exact quiet rfl
  | compact order outcome => exact quiet rfl
  | restart cut expireOrder now => cases alive

/-- The owner of a text keeps it through an action that leaves it live. -/
theorem ownerOf_act (wf : n.index.WellFormed) {a : Action} (admissible : n.Admissible cfg a)
    (alive : crashes a = false) (unrivalled : n.Unrivalled m k u a)
    (owner : n.index.ownerOf m k = some u) (live : (n.act cfg a).index.entryAt m u ≠ none) :
    (n.act cfg a).index.ownerOf m k = some u := by
  by_cases applies : a = .apply
  · subst applies
    change n.apply.index.entryAt m u ≠ none at live
    change n.apply.index.ownerOf m k = some u
    rcases apply_index_cases n with same | ⟨line, lines, compact, phase, taken⟩
    · rw [same]
      exact owner
    · rw [taken] at live ⊢
      cases kind : line.tombstone with
      | true =>
          rw [SemanticIndex.replayEntry_of_tombstone kind] at live ⊢
          exact (SemanticIndex.KeepsTexts.removeByUuid wf line.uuid).ownerOf owner live
      | false =>
          rw [SemanticIndex.replayEntry_of_insert kind]
          exact SemanticIndex.ownerOf_insertInto owner fun here same =>
            unrivalled line lines compact phase kind here same
  · exact (act_keepsTexts wf admissible applies alive).ownerOf owner live

/-- The entry is live with its record, no delete handler is about to remove it, and
it answers for its text. -/
structure Serves (n : Node) (m k u : String) (record : Record) : Prop where
  keeps : n.Keeps m u record
  owner : n.index.ownerOf m k = some u

/-- Nothing is asked to remove the entry, and no other takes over its text. -/
def Undisturbed (cfg : NodeConfig) (m k u : String) (record : Record) (n : Node) (a : Action) : Prop :=
  n.Unraced a ∧ n.Spares cfg m u record a ∧ n.Unrivalled m k u a

variable {record : Record}

theorem Serves.act (serves : n.Serves m k u record) (wf : n.index.WellFormed)
    (forgotten : Forgotten n) {a : Action} (admissible : n.Admissible cfg a)
    (undisturbed : Undisturbed cfg m k u record n a) : (n.act cfg a).Serves m k u record := by
  obtain ⟨-, spares, unrivalled⟩ := undisturbed
  have keeps := serves.keeps.act wf forgotten admissible spares
  have alive : crashes a = false := by
    cases a with
    | restart cut expireOrder now => exact spares.elim
    | _ => rfl
  refine ⟨keeps, ownerOf_act wf admissible alive unrivalled serves.owner fun gone => ?_⟩
  have live := keeps.live
  rw [gone] at live
  cases live

theorem Serves.run (serves : n.Serves m k u record) (reached : Reachable cfg Unraced n)
    {actions : List Action} (allowed : Allowed cfg (Undisturbed cfg m k u record) n actions) :
    (n.run cfg actions).Serves m k u record ∧ (n.run cfg actions).index.WellFormed := by
  induction actions generalizing n with
  | nil => exact ⟨serves, reached.wellFormed⟩
  | cons a actions ih =>
      obtain ⟨admissible, undisturbed, rest⟩ := allowed
      exact ih (serves.act reached.wellFormed reached.forgotten admissible undisturbed)
        (reached.act a admissible undisturbed.1) rest

end Lookup

/-! ## The query -/

section Query

variable [Platform]

variable {cfg : NodeConfig} {n : Node}

end Query

section Example

local instance lookupPlatform : Platform := Platform.sample

end Example

end Ferrocache.Node
