import Ferrocache.Lib.Exposition
import Ferrocache.Lib.HashMap
import Mathlib.Data.Finset.Sort
import Mathlib.Data.String.Basic

/-!
# Namespace metrics

`render` (`metrics.rs`) writes ten families of samples that carry a namespace key
as their label.  Namespace keys come from clients.  `escape_label` is three
replacements over the whole text, one for each character to escape; together they
are the one-pass escaping of the exposition format (`escapeLabel_eq`), so the
families are read back as the samples they were written from.
-/

namespace Ferrocache

open Exposition

/-! ## Labels -/

/-- `str::replace` with a character as the pattern. -/
def replaceChar (old : Char) (new s : String) : String :=
  String.ofList (s.toList.flatMap fun c => if c = old then new.toList else [c])

def escapeLabel (s : String) : String :=
  replaceChar '\n' "\\n" (replaceChar '"' "\\\"" (replaceChar '\\' "\\\\" s))

/-- Decoding by the rules of the exposition format. -/
def decodeLabel (s : String) : Option String := (labelEscape.decode s.toList).map String.ofList

theorem toList_replaceChar (old : Char) (new s : String) :
    (replaceChar old new s).toList =
      s.toList.flatMap fun c => if c = old then new.toList else [c] :=
  String.toList_ofList

/-- The backslash goes first, so no replacement meets the result of an earlier
one. -/
theorem escapeLabel_eq (s : String) : (escapeLabel s).toList = labelEscape.encode s.toList := by
  unfold escapeLabel Escape.encode
  rw [toList_replaceChar, toList_replaceChar, toList_replaceChar, List.flatMap_assoc,
    List.flatMap_assoc]
  congr 1
  funext c
  by_cases backslash : c = '\\'
  · subst backslash
    decide
  by_cases quote : c = '"'
  · subst quote
    decide
  by_cases newline : c = '\n'
  · subst newline
    decide
  · have kept : labelEscape.code c = none := by
      show (if c = '\\' then _ else if c = '"' then _ else if c = '\n' then _ else none) = _
      rw [if_neg backslash, if_neg quote, if_neg newline]
    simp only [Escape.encodeOne_of_plain kept, if_neg backslash, if_neg quote, if_neg newline,
      List.flatMap_cons, List.flatMap_nil, List.append_nil]

theorem decodeLabel_escapeLabel (s : String) : decodeLabel (escapeLabel s) = some s := by
  unfold decodeLabel
  rw [escapeLabel_eq, Escape.decode_encode, Option.map_some, String.ofList_toList]

theorem escapeLabel_injective {s t : String} (same : escapeLabel s = escapeLabel t) : s = t := by
  have decoded : decodeLabel (escapeLabel s) = decodeLabel (escapeLabel t) := by rw [same]
  rw [decodeLabel_escapeLabel, decodeLabel_escapeLabel] at decoded
  exact Option.some.inj decoded

/-! ## Families -/

/-- What `render` reads of the statistics of a namespace. -/
structure NamespaceStats where
  entryCount : Nat
  evictedGhostCount : Nat

structure NamespaceMetrics where
  queriesHit : Nat
  queriesMiss : Nat
  inserts : Nat
  evictions : Nat
  expirations : Nat
  deletions : Nat
  invalidations : Nat
  exactMatchHits : Nat

/-- Where the samples of a family come from. -/
inductive Source where
  | index (field : NamespaceStats → Nat)
  | counters (field : NamespaceMetrics → Nat)

structure Family where
  name : String
  help : String
  source : Source

def Source.kind : Source → String
  | index _ => "gauge"
  | counters _ => "counter"

/-- The namespace families in the order of `render`. -/
def namespaceFamilies : List Family :=
  [⟨"ferrocache_namespace_entries", "Entries per namespace.", .index (·.entryCount)⟩,
   ⟨"ferrocache_namespace_queries_hit", "Cache hits per namespace.", .counters (·.queriesHit)⟩,
   ⟨"ferrocache_namespace_queries_miss", "Cache misses per namespace.",
    .counters (·.queriesMiss)⟩,
   ⟨"ferrocache_namespace_inserts", "Inserts per namespace.", .counters (·.inserts)⟩,
   ⟨"ferrocache_namespace_evictions", "LRU evictions per namespace.", .counters (·.evictions)⟩,
   ⟨"ferrocache_namespace_evicted_ghosts",
    "Ghost (evicted-but-still-in-graph) HNSW nodes per namespace.",
    .index (·.evictedGhostCount)⟩,
   ⟨"ferrocache_namespace_expirations", "TTL expirations per namespace.",
    .counters (·.expirations)⟩,
   ⟨"ferrocache_namespace_deletions", "Explicit deletions per namespace.",
    .counters (·.deletions)⟩,
   ⟨"ferrocache_namespace_invalidations", "Semantic invalidations per namespace.",
    .counters (·.invalidations)⟩,
   ⟨"ferrocache_namespace_exact_match_hits", "Exact-match pre-filter hits per namespace.",
    .counters (·.exactMatchHits)⟩]

section Render

variable (nsMetrics : HashMap String NamespaceMetrics) (indexStats : HashMap String NamespaceStats)

/-- The keys of a family in sorted order, with their values.  A counter that was
never touched is zero. -/
def Source.rows : Source → List (String × Nat)
  | index field =>
      -- The keys are those of the map, so the lookup does not fail.
      indexStats.keys.sort.map fun k => (k, ((indexStats.lookup k).map field).getD 0)
  | counters field =>
      (nsMetrics.keys ∪ indexStats.keys).sort.map fun k =>
        (k, ((nsMetrics.lookup k).map field).getD 0)

def writeSample (name key : String) (value : Nat) : String :=
  name ++ "\x7bnamespace=\"" ++ escapeLabel key ++ "\"\x7d " ++ toString value ++ "\n"

def Family.write (f : Family) : String :=
  "# HELP " ++ f.name ++ " " ++ f.help ++ "\n" ++
  "# TYPE " ++ f.name ++ " " ++ f.source.kind ++ "\n" ++
  String.join ((f.source.rows nsMetrics indexStats).map fun row =>
    writeSample f.name row.1 row.2) ++
  "\n"

/-- The part of `render` that writes the namespace families. -/
def renderNamespaces : String :=
  String.join (namespaceFamilies.map (Family.write nsMetrics indexStats))

/-! ## Reading the families back -/

def sampleLine (name key : String) (value : Nat) : Line :=
  .sample name.toList "namespace".toList key.toList (toString value).toList

/-- What a family says: its help, its type, one sample for each key, and a blank
line. -/
def Family.lines (f : Family) : List Line :=
  .comment (" HELP " ++ f.name ++ " " ++ f.help).toList ::
  .comment (" TYPE " ++ f.name ++ " " ++ f.source.kind).toList ::
  ((f.source.rows nsMetrics indexStats).map fun row => sampleLine f.name row.1 row.2) ++
  [.blank]

def namespaceLines : List Line :=
  namespaceFamilies.flatMap (Family.lines nsMetrics indexStats)

/-- The fixed texts of a family stay on their lines. -/
def Family.Plain (f : Family) : Prop :=
  ('\n' ∉ f.name.toList ∧ '#' ∉ f.name.toList ∧ '\x7b' ∉ f.name.toList) ∧ '\n' ∉ f.help.toList

instance (f : Family) : Decidable f.Plain := inferInstanceAs (Decidable (_ ∧ _))

theorem namespaceFamilies_plain : ∀ f ∈ namespaceFamilies, f.Plain := by decide +kernel

theorem newline_notMem_kind (source : Source) : '\n' ∉ source.kind.toList := by
  cases source with
  | index field =>
    show '\n' ∉ "gauge".toList
    decide
  | counters field =>
    show '\n' ∉ "counter".toList
    decide

theorem newline_notMem_toString (n : Nat) : '\n' ∉ (toString n).toList := by
  intro mem
  have digits : (toString n).toList = Nat.toDigits 10 n := by
    show (Nat.repr n).toList = _
    rw [Nat.toList_repr]
  rw [digits] at mem
  have digit := Nat.isDigit_of_mem_toDigits (by decide) (by decide) mem
  cases digit

theorem newline_notMem_comment {word name text : String} (inWord : '\n' ∉ word.toList)
    (inName : '\n' ∉ name.toList) (inText : '\n' ∉ text.toList) :
    '\n' ∉ (word ++ name ++ " " ++ text).toList := by
  simp only [String.toList_append, List.mem_append, not_or]
  exact ⟨⟨⟨inWord, inName⟩, by decide⟩, inText⟩

theorem Family.Plain.lines {f : Family} (plain : f.Plain) :
    ∀ line ∈ f.lines nsMetrics indexStats, line.Plain := by
  obtain ⟨inName, inHelp⟩ := plain
  intro line mem
  unfold Family.lines at mem
  simp only [List.mem_append, List.mem_cons, List.not_mem_nil, or_false] at mem
  rcases mem with (rfl | rfl | listed) | rfl
  · exact newline_notMem_comment (by decide) inName.1 inHelp
  · exact newline_notMem_comment (by decide) inName.1 (newline_notMem_kind f.source)
  · obtain ⟨row, _, rfl⟩ := List.mem_map.mp listed
    exact ⟨inName, by decide, newline_notMem_toString row.2⟩
  · trivial

theorem namespaceLines_plain : ∀ line ∈ namespaceLines nsMetrics indexStats, line.Plain := by
  intro line mem
  obtain ⟨f, listed, inside⟩ := List.mem_flatMap.mp mem
  exact (namespaceFamilies_plain f listed).lines nsMetrics indexStats line inside

theorem toList_writeSample (name key : String) (value : Nat) :
    (writeSample name key value).toList = (sampleLine name key value).text ++ ['\n'] := by
  unfold writeSample sampleLine Line.text
  simp only [String.toList_append, escapeLabel_eq, List.append_assoc, List.cons_append]
  rfl

theorem Family.toList_write (f : Family) :
    (f.write nsMetrics indexStats).toList = document (f.lines nsMetrics indexStats) := by
  have samples (rows : List (String × Nat)) :
      (String.join (rows.map fun row => writeSample f.name row.1 row.2)).toList =
        document (rows.map fun row => sampleLine f.name row.1 row.2) := by
    rw [String.toList_join, document, List.flatMap_map, List.flatMap_map]
    simp only [toList_writeSample]
  unfold Family.write Family.lines
  simp only [String.toList_append, samples]
  simp only [document, List.flatMap_append, List.flatMap_cons, List.flatMap_nil, Line.text,
    List.append_assoc, List.cons_append, List.nil_append, List.append_nil]
  rfl

theorem toList_renderNamespaces :
    (renderNamespaces nsMetrics indexStats).toList =
      document (namespaceLines nsMetrics indexStats) := by
  unfold renderNamespaces namespaceLines document
  rw [String.toList_join, List.flatMap_map, List.flatMap_assoc]
  simp only [Family.toList_write]
  rfl

/-- Whatever stands before and after the families, they are read as their own
lines. -/
theorem read_renderNamespaces (before after : String) :
    read (before ++ "\n" ++ renderNamespaces nsMetrics indexStats ++ after).toList =
      read before.toList ++ (namespaceLines nsMetrics indexStats).map some ++
        read after.toList := by
  have text : (before ++ "\n" ++ renderNamespaces nsMetrics indexStats ++ after).toList =
      before.toList ++ '\n' :: (document (namespaceLines nsMetrics indexStats) ++
        after.toList) := by
    simp only [String.toList_append, toList_renderNamespaces, List.append_assoc]
    rfl
  rw [text, read_append, read_document (namespaceLines_plain nsMetrics indexStats),
    List.append_assoc]

end Render

/-- A namespace stays inside its label: no newline leaves it, every quote in it is
escaped, its label decodes to it and to nothing else, and the families are read as
one sample for each key. -/
theorem namespace_labels_safe :
    (∀ s, '\n' ∉ (escapeLabel s).toList) ∧
    (∀ s before after, (escapeLabel s).toList = before ++ '"' :: after →
      Odd (before.rtakeWhile (· = '\\')).length) ∧
    (∀ s, decodeLabel (escapeLabel s) = some s) ∧
    (∀ s t, escapeLabel s = escapeLabel t → s = t) ∧
    (∀ nsMetrics indexStats before after,
      read (before ++ "\n" ++ renderNamespaces nsMetrics indexStats ++ after).toList =
        read before.toList ++ (namespaceLines nsMetrics indexStats).map some ++
          read after.toList) := by
  refine ⟨fun s => ?_, fun s before after cut => ?_, decodeLabel_escapeLabel,
    fun s t => escapeLabel_injective, read_renderNamespaces⟩
  · rw [escapeLabel_eq]
    exact newline_notMem_encode s.toList
  · rw [escapeLabel_eq] at cut
    exact Escape.odd_trailing_of_encode (by decide) (by decide) cut

end Ferrocache
