import Ferrocache.Node.Provenance

/-!
# A UUID with one home

A UUID that is only ever inserted into one namespace is live at most where the
directory of the node says, through crashes as well; a removal by UUID then
leaves nothing of it.
-/

namespace Ferrocache

/-- The UUID is used in one namespace only. -/
def LivesIn (uuid home : String) (m u : String) (_ : Record) : Prop := u = uuid → m = home

variable [Platform] {uuid home : String}

namespace SemanticIndex

variable {idx : SemanticIndex}

/-- An insertion into the home of the UUID, or of another one. -/
theorem HousedAt.insertInto (housed : idx.HousedAt uuid) (wf : idx.WellFormed)
    (only : idx.Only (LivesIn uuid home)) {m : String} {entry : CacheEntry}
    (meets : LivesIn uuid home m entry.uuid entry.record) :
    (idx.insertInto m entry).1.HousedAt uuid := by
  by_cases accepted : NamespacedIndex.Accepts (idx.dimensionOf m) entry.embedding.length
  · have inserted := (insertInto_of_accepts wf accepted).1
    have after := only.insertInto wf meets
    intro m' live
    rw [inserted.directory, HashMap.lookup_insert_eq]
    split
    · next same =>
        -- every entry of the UUID is at its home, and so is the one inserted
        obtain ⟨e, found⟩ := Option.ne_none_iff_exists'.mp live
        rw [after m' uuid e found rfl, meets same.symm]
    · next other =>
        rw [inserted.live, if_neg fun both => other both.2] at live
        exact housed m' live
  · obtain ⟨msg, rejected⟩ := insertInto_of_not_accepts accepted
    rw [rejected]
    exact housed

theorem HousedAt.replayEntry (housed : idx.HousedAt uuid) (wf : idx.WellFormed)
    (only : idx.Only (LivesIn uuid home)) {line : WalEntry}
    (meets : line.Meets (LivesIn uuid home)) : (idx.replayEntry line).1.HousedAt uuid := by
  cases kind : line.tombstone with
  | true =>
      rw [replayEntry_of_tombstone kind]
      exact housed.of_removedUuid (removeByUuid_spec wf line.uuid)
  | false =>
      rw [replayEntry_of_insert kind]
      exact housed.insertInto wf only (meets kind)

end SemanticIndex

/-- An index that the UUID is at home in. -/
structure SemanticIndex.Homed (uuid home : String) (idx : SemanticIndex) : Prop where
  wellFormed : idx.WellFormed
  only : idx.Only (LivesIn uuid home)
  housed : idx.HousedAt uuid

namespace SemanticIndex.Homed

variable {idx : SemanticIndex}

theorem new (cfg : HnswConfig) : Homed uuid home (.new cfg) := by
  refine ⟨wellFormed_new cfg, fun m u e live => ?_, fun m live => absurd ?_ live⟩
  · simp [SemanticIndex.new, SemanticIndex.entryAt] at live
  · rfl

theorem insertInto (homed : Homed uuid home idx) {m : String} {entry : CacheEntry}
    (meets : LivesIn uuid home m entry.uuid entry.record) :
    Homed uuid home (idx.insertInto m entry).1 where
  wellFormed := homed.wellFormed.insertInto m entry
  only := homed.only.insertInto homed.wellFormed meets
  housed := homed.housed.insertInto homed.wellFormed homed.only meets

theorem replayEntry (homed : Homed uuid home idx) {line : WalEntry}
    (meets : line.Meets (LivesIn uuid home)) : Homed uuid home (idx.replayEntry line).1 where
  wellFormed := homed.wellFormed.replayEntry line
  only := homed.only.replayEntry homed.wellFormed meets
  housed := homed.housed.replayEntry homed.wellFormed homed.only meets

theorem replayLines (homed : Homed uuid home idx) {lines : List WalEntry}
    (meets : ∀ line ∈ lines, line.Meets (LivesIn uuid home)) :
    Homed uuid home (lines.foldl (fun idx line => (idx.replayEntry line).1) idx) :=
  List.foldlRecOn (motive := Homed uuid home) lines _ homed fun _ kept line mem =>
    kept.replayEntry (meets line mem)

theorem loses (homed : Homed uuid home idx) {idx' : SemanticIndex}
    {gone : List (String × String)} (lost : Loses idx idx' gone) : Homed uuid home idx' where
  wellFormed := lost.wellFormed
  only := homed.only.loses lost
  housed := lost.housed uuid homed.housed

theorem loadSnapshot (cfg : HnswConfig) {snapshot : Option Snapshot}
    (meets : ∀ s ∈ (snapshot.map (·.entries)).getD [],
      LivesIn uuid home s.modelId s.uuid s.cacheEntry.record) :
    Homed uuid home (Ferrocache.loadSnapshot cfg snapshot) :=
  List.foldlRecOn (motive := Homed uuid home) _ _ (.new cfg) fun _ kept s mem =>
    kept.insertInto (meets s mem)

theorem recover {log : Log} (only : log.Only (LivesIn uuid home)) {cfg : HnswConfig}
    {r : Recovery} (read : Ferrocache.recover cfg log.disk = .ok r) : Homed uuid home r.index :=
  recover_induction (motive := Homed uuid home) (.new cfg)
    (fun _ kept s mem => kept.insertInto (only.snapshot s mem))
    (fun _ kept _ replayed line mem => kept.replayEntry (only.file.replay replayed line mem)) read

end SemanticIndex.Homed

namespace Node

/-- A node that only ever stores the UUID in its home. -/
structure Homed (uuid home : String) (n : Node) : Prop where
  only : n.Only (LivesIn uuid home)
  index : n.index.Homed uuid home
  outbox : n.SendsTombstones

variable {cfg : NodeConfig} {n : Node}

theorem Homed.act (homed : n.Homed uuid home) {a : Action} (admissible : n.Admissible cfg a)
    (submitted : ∀ entry, a = .submit entry → entry.Meets (LivesIn uuid home)) :
    (n.act cfg a).Homed uuid home := by
  have wf := homed.index.wellFormed
  refine ⟨homed.only.act wf admissible submitted, ?_, homed.outbox.act a⟩
  have effect := act_index wf admissible
  generalize (n.act cfg a).index = index at effect ⊢
  cases effect with
  | loses lost _ => exact homed.index.loses lost
  | takes line lines compact runs phase =>
      refine homed.index.replayEntry (homed.only.pending line ?_)
      rw [phase]
      exact List.mem_cons_self
  | boots cut expireOrder now runs r read visits =>
      subst runs
      have crash : LogChange n (WholeLines (.restart cut expireOrder now)) (n.crashLog cfg cut) :=
        crashLog_change admissible.1
      have recovered := SemanticIndex.Homed.recover (homed.only.change wf crash) read
      exact recovered.loses
        (.of_removed (SemanticIndex.Removed.collectExpired recovered.wellFormed visits.1 now))

theorem homed_new : (new cfg).Homed uuid home :=
  ⟨only_new, .new _, fun _ mem => absurd mem List.not_mem_nil⟩

theorem Reachable.homed {guard : Node → Action → Prop}
    (submitted : ∀ n entry, guard n (.submit entry) → entry.Meets (LivesIn uuid home))
    (reached : Reachable cfg guard n) : n.Homed uuid home := by
  induction reached with
  | new => exact homed_new
  | act a _ admissible guarded ih =>
      refine ih.act admissible fun entry same => ?_
      subst same
      exact submitted _ entry guarded

end Node

end Ferrocache
