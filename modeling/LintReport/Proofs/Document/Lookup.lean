import LintReport.Proofs.Document.Cache

set_option autoImplicit false

/- Lookups one after the other, while the files change in between as they like. What is found
under a path is what lay on the disk when the path was looked up first, however it was spelled,
and the document of the run is never looked for there. -/
namespace LintReport

open LintReport.Path (isNormal_normalize)

/-- One lookup: the path that is asked for, and the files as they are then. -/
structure Lookup where
  disk : Disk
  path : Path

namespace Lookup

/-- Spellings of one path ask for the same. -/
def key (l : Lookup) : Path := l.path.normalize

/-- What a lookup reads when it has to: the bytes that lie there then. -/
def read? (l : Lookup) (language : String) : Option Document :=
  (l.disk.read l.key).toOption.map fun content => ⟨l.key, language, 0, content⟩

theorem toOption_read (l : Lookup) (language : String) :
    (Document.read l.disk l.key language).toOption = l.read? language := by
  have normal : l.key.normalize = l.key := isNormal_normalize l.path
  unfold Document.read read?
  cases l.disk.read l.key with
  | error e => rfl
  | ok content =>
      change some (Document.ofContent l.key language 0 content) = _
      rw [Document.ofContent, normal]
      rfl

end Lookup

namespace Document

variable (primary : Document)

/-- Whether a path in normal form needs no reading any more. -/
def Settled (seen : List Lookup) (key : Path) : Prop :=
  key = primary.path ∨ ∃ l ∈ seen, l.key = key

theorem settled_append_singleton (seen : List Lookup) (l : Lookup) (key : Path) :
    primary.Settled (seen ++ [l]) key ↔ primary.Settled seen key ∨ l.key = key := by
  simp only [Settled, List.mem_append, List.mem_singleton, or_and_right, exists_or,
    exists_eq_left, or_assoc]

/-- What is under a path in normal form: the document of the run, or what the first lookup of
the path reads. -/
def recalled? (ls : List Lookup) (key : Path) : Option Document :=
  if key = primary.path then some primary
  else (ls.find? fun l => decide (l.key = key)).bind fun first => first.read? primary.language

variable {primary} {seen : List Lookup}

/-- The first lookup of a path stays the first one. -/
theorem recalled?_append {key : Path} (settled : primary.Settled seen key) (more : List Lookup) :
    primary.recalled? (seen ++ more) key = primary.recalled? seen key := by
  unfold recalled?
  split
  · rfl
  · next other =>
      obtain ⟨l, member, equal⟩ := settled.resolve_left other
      have present : (seen.find? fun l => decide (l.key = key)).isSome = true := by
        rw [List.find?_isSome]
        exact ⟨l, member, by simpa using equal⟩
      obtain ⟨first, found⟩ := Option.isSome_iff_exists.mp present
      rw [List.find?_append, found, Option.some_or]

theorem recalled?_append_singleton {l : Lookup} (fresh : ¬ primary.Settled seen l.key) :
    primary.recalled? (seen ++ [l]) l.key = l.read? primary.language := by
  obtain ⟨other, absent⟩ := not_or.mp fresh
  have none : seen.find? (fun l' => decide (l'.key = l.key)) = none := by
    rw [List.find?_eq_none]
    intro l' member equal
    exact absent ⟨l', member, by simpa using equal⟩
  rw [recalled?, if_neg other, List.find?_append, none, Option.none_or,
    List.find?_cons_of_pos (by simp), Option.bind_some]

end Document

namespace DocumentCache

/-- The cache after some lookups. -/
def after (c : DocumentCache) (ls : List Lookup) : DocumentCache :=
  ls.foldl (fun c l => (c.load l.disk l.path).2) c

/-- What the lookups find, one by one. -/
def answers (c : DocumentCache) : List Lookup → List (Option Document)
  | [] => []
  | l :: ls => (c.load l.disk l.path).1 :: answers (c.load l.disk l.path).2 ls

/-- The paths that the lookups read from the disk, as often as they read them. -/
def reads (c : DocumentCache) : List Lookup → List Path
  | [] => []
  | l :: ls =>
      (if (c.known? l.key).isSome then [] else [l.key]) ++ reads (c.load l.disk l.path).2 ls

/-- What a cache knows after some lookups: of each path that needs no reading any more, what is
recalled, and nothing of the others. -/
structure Recalls (primary : Document) (seen : List Lookup) (c : DocumentCache) : Prop where
  same : c.primary = primary
  settled : ∀ key, primary.Settled seen key → c.known? key = some (primary.recalled? seen key)
  fresh : ∀ key, ¬ primary.Settled seen key → c.known? key = none

theorem recalls_ofPrimary (primary : Document) : Recalls primary [] (ofPrimary primary) := by
  refine ⟨rfl, ?_, ?_⟩
  · intro key settled
    have here : key = primary.path := by simpa [Document.Settled] using settled
    rw [known?_ofPrimary, if_pos here, Document.recalled?, if_pos here]
  · intro key fresh
    rw [known?_ofPrimary, if_neg (not_or.mp fresh).1]

variable {primary : Document} {seen : List Lookup} {c : DocumentCache}

/-- What is settled is found whatever lies on the disk, and nothing changes. -/
theorem Recalls.load_of_settled (recalls : Recalls primary seen c) {path : Path}
    (settled : primary.Settled seen path.normalize) (disk : Disk) :
    c.load disk path = (primary.recalled? seen path.normalize, c) :=
  load_of_known disk (recalls.settled path.normalize settled)

theorem Recalls.load_of_fresh (recalls : Recalls primary seen c) {l : Lookup}
    (fresh : ¬ primary.Settled seen l.key) :
    c.load l.disk l.path = (l.read? primary.language,
      { c with entries := (l.key, l.read? primary.language) :: c.entries }) := by
  have unknown : c.known? l.path.normalize = none := recalls.fresh l.key fresh
  have found : (Document.read l.disk l.path.normalize primary.language).toOption =
      l.read? primary.language := l.toOption_read primary.language
  simp only [DocumentCache.load, unknown, recalls.same, found, Lookup.key]

/-- One lookup finds what is recalled from then on, and the cache recalls it too. -/
theorem Recalls.load (recalls : Recalls primary seen c) (l : Lookup) :
    (c.load l.disk l.path).1 = primary.recalled? (seen ++ [l]) l.key ∧
      Recalls primary (seen ++ [l]) (c.load l.disk l.path).2 := by
  have step := primary.settled_append_singleton seen l
  by_cases settled : primary.Settled seen l.key
  · have before : ∀ key, primary.Settled (seen ++ [l]) key → primary.Settled seen key := by
      intro key later
      rcases (step key).mp later with before | rfl
      · exact before
      · exact settled
    rw [recalls.load_of_settled settled l.disk]
    refine ⟨(Document.recalled?_append settled [l]).symm, recalls.same, ?_, ?_⟩
    · intro key later
      rw [recalls.settled key (before key later), Document.recalled?_append (before key later)]
    · intro key fresh
      exact recalls.fresh key fun old => fresh ((step key).mpr (Or.inl old))
  · have read := Document.recalled?_append_singleton settled
    rw [recalls.load_of_fresh settled]
    refine ⟨read.symm, recalls.same, ?_, ?_⟩
    · intro key later
      rw [known?_remembered]
      by_cases here : key = l.key
      · rw [if_pos here, here, read]
      · have before := ((step key).mp later).resolve_right (Ne.symm here)
        rw [if_neg here, recalls.settled key before, Document.recalled?_append before]
    · intro key fresh
      obtain ⟨old, other⟩ := not_or.mp (mt (step key).mpr fresh)
      rw [known?_remembered, if_neg (Ne.symm other), recalls.fresh key old]

theorem Recalls.after (recalls : Recalls primary seen c) (ls : List Lookup) :
    Recalls primary (seen ++ ls) (c.after ls) := by
  induction ls generalizing seen c with
  | nil =>
      rw [List.append_nil]
      exact recalls
  | cons l ls ih =>
      have next := ih (recalls.load l).2
      rw [List.append_assoc, List.singleton_append] at next
      exact next

theorem Recalls.answers (recalls : Recalls primary seen c) (ls : List Lookup) :
    c.answers ls = ls.map fun l => primary.recalled? (seen ++ ls) l.key := by
  induction ls generalizing seen c with
  | nil => rfl
  | cons l ls ih =>
      obtain ⟨found, next⟩ := recalls.load l
      have settled : primary.Settled (seen ++ [l]) l.key :=
        (primary.settled_append_singleton seen l l.key).mpr (Or.inr rfl)
      have stays := Document.recalled?_append settled ls
      have others := ih next
      rw [List.append_assoc, List.singleton_append] at stays others
      rw [DocumentCache.answers, List.map_cons, found, others, stays]

/-- What is settled is not read, and everything else that is looked up is read once. -/
theorem Recalls.reads (recalls : Recalls primary seen c) (ls : List Lookup) :
    (c.reads ls).Nodup ∧
      ∀ key, key ∈ c.reads ls ↔ ¬ primary.Settled seen key ∧ ∃ l ∈ ls, l.key = key := by
  induction ls generalizing seen c with
  | nil => simp [DocumentCache.reads]
  | cons l ls ih =>
      obtain ⟨once, others⟩ := ih (recalls.load l).2
      simp only [primary.settled_append_singleton, not_or] at others
      rw [DocumentCache.reads]
      by_cases settled : primary.Settled seen l.key
      · rw [recalls.settled l.key settled, Option.isSome_some, if_pos rfl, List.nil_append]
        refine ⟨once, ?_⟩
        intro key
        rw [others, List.exists_mem_cons_iff, and_assoc]
        refine and_congr_right fun fresh => ?_
        have other : l.key ≠ key := fun equal => fresh (equal ▸ settled)
        simp only [other, not_false_eq_true, true_and, false_or]
      · rw [recalls.fresh l.key settled, Option.isSome_none, if_neg Bool.false_ne_true,
          List.singleton_append, List.nodup_cons]
        refine ⟨⟨fun again => ((others l.key).mp again).1.2 rfl, once⟩, ?_⟩
        intro key
        rw [List.mem_cons, others, List.exists_mem_cons_iff]
        by_cases here : l.key = key
        · subst here
          simp only [true_or, settled, not_false_eq_true, and_self]
        · simp only [here, Ne.symm here, false_or, not_false_eq_true, and_true]

/-- In a run of lookups each finds what was read when its path was looked up first, and finds
the document of the run under its own path. No path is read twice, that document not at all:
once a path is settled, the disk does not count for it. -/
theorem answers_ofPrimary (path : Path) (language : String) (version : Int)
    (content : List UInt8) (lookups : List Lookup) :
    let primary := Document.ofContent path language version content
    let cache := ofPrimary primary
    cache.answers lookups = lookups.map (fun l => primary.recalled? lookups l.key) ∧
    (cache.reads lookups).Nodup ∧
    (∀ key, key ∈ cache.reads lookups ↔ key ≠ primary.path ∧ ∃ l ∈ lookups, l.key = key) ∧
    ∀ next : Path, next.normalize = primary.path ∨ (∃ l ∈ lookups, l.key = next.normalize) →
      ∀ disk, (cache.after lookups).load disk next =
        (primary.recalled? lookups next.normalize, cache.after lookups) := by
  intro primary cache
  have start := recalls_ofPrimary primary
  obtain ⟨once, exactly⟩ := start.reads lookups
  refine ⟨start.answers lookups, once, ?_, ?_⟩
  · intro key
    rw [exactly, Document.Settled]
    simp
  · intro next settled disk
    exact (start.after lookups).load_of_settled settled disk

end DocumentCache

end LintReport
