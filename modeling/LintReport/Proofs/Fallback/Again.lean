import LintReport.Proofs.Fallback.Retry

set_option autoImplicit false

/- Asking twice. As long as the files stay and the analyzer answers a call the same way each
time, the second answer is the first: a call teaches at most that the document belongs to the
alternate that was taken for it. -/
namespace LintReport

open LintReport.Path (Same)

/-- Putting what is there already changes nothing. -/
theorem PathMap.foldl_insert_of_find? {α : Type} (ps : List Path) (a : α) {m : PathMap α}
    (ordered : m.Ordered) (found : ∀ p ∈ ps, m.find? p = some a) :
    ps.foldl (fun m p => m.insert p a) m = m := by
  induction ps with
  | nil => rfl
  | cons p ps ih =>
      have here : m.insert p a = m := upsert_of_find? ordered (found p List.mem_cons_self) rfl
      rw [List.foldl_cons, here, ih fun q member => found q (List.mem_cons_of_mem p member)]

/-- What was learned from a report is not learned from it again. -/
theorem Associations.record_record {a : Associations} {r : Report} (valid : a.Valid)
    (ofRun : r.OfRun) : (a.record r).record r = a.record r := by
  have known : ∀ p ∈ r.reportedOn,
      (a.record r).sources.find? p = some r.document.path := by
    intro p member
    have found := source?_record valid ofRun p
    rw [if_pos (of_decide_eq_true (List.mem_filter.mp member).2)] at found
    exact found
  have sources : ((a.record r).record r).sources = (a.record r).sources := by
    rw [sources_record ofRun]
    exact PathMap.foldl_insert_of_find? _ _ (valid_record valid ofRun).ordered known
  calc (a.record r).record r
    _ = ⟨((a.record r).record r).sources⟩ := rfl
    _ = ⟨(a.record r).sources⟩ := by rw [sources]
    _ = a.record r := rfl

namespace Host

variable {h : Host} {w w' : World}

/-- Each call of a program ends as it always does, and leaves the files as they are. -/
def Steady (h : Host) (disk : Disk) : Prop :=
  ∃ ending : Start → Ending, ∀ history s, h.respond history disk s = (ending s, disk)

theorem Steady.start (steady : h.Steady w.disk) (same : w'.disk = w.disk) (s : Start) :
    (h.start w' s).1 = (h.start w s).1 ∧ (h.start w' s).2.disk = w.disk := by
  obtain ⟨ending, answers⟩ := steady
  unfold Host.start
  split
  · exact ⟨rfl, same⟩
  · rw [same]
    dsimp only
    rw [answers, answers]
    exact ⟨rfl, rfl⟩

theorem Steady.run (steady : h.Steady w.disk) (same : w'.disk = w.disk) (merge : Bool)
    (limit : Option UInt64) (i : Invocation) :
    (h.run merge limit i w').1 = (h.run merge limit i w).1 ∧
      (h.run merge limit i w').2.disk = w.disk := by
  unfold Host.run
  rw [same]
  cases found : h.findProgram? w.disk ⟨i.program⟩ with
  | none => exact ⟨rfl, same⟩
  | some program =>
      obtain ⟨ending, kept⟩ := steady.start same ⟨program, i.args⟩
      exact ⟨congrArg (collected merge limit i.program) ending, kept⟩

end Host

/-- With a steady host the report on a document depends on the files alone. -/
theorem Analyzer.analyze_of_steady {a : Analyzer} {w w' : World} (steady : a.host.Steady w.disk)
    (same : w'.disk = w.disk) (d : Document) :
    (a.analyze d w').1 = (a.analyze d w).1 ∧ (a.analyze d w').2.disk = w.disk := by
  unfold analyze
  split
  · obtain ⟨result, kept'⟩ :=
      steady.run same a.profile.mergeStderr a.profile.timeoutSecs (a.invocation d)
    obtain ⟨_, kept⟩ :=
      steady.run rfl a.profile.mergeStderr a.profile.timeoutSecs (a.invocation d)
    generalize a.host.run a.profile.mergeStderr a.profile.timeoutSecs (a.invocation d) w' = again
      at result kept' ⊢
    generalize a.host.run a.profile.mergeStderr a.profile.timeoutSecs (a.invocation d) w = once
      at result kept ⊢
    obtain ⟨r, after'⟩ := again
    obtain ⟨_, after⟩ := once
    cases result
    dsimp only at kept kept'
    cases r with
    | error e => exact ⟨rfl, kept'⟩
    | ok output =>
        dsimp only
        rw [kept, kept']
        exact ⟨rfl, rfl⟩
  · exact ⟨rfl, same⟩

namespace Fallback

/-- Only what a file belongs to decides which alternate it has. -/
theorem alternate?_congr {a b : Associations} {path : Path} (same : a.source? path = b.source? path)
    (disk : Disk) : alternate? a disk path = alternate? b disk path := by
  rw [alternate?, alternate?, same]

/-- Learning from the report on an alternate does not lead to another one. -/
theorem alternate?_record {known : Associations} {disk : Disk} {path alternate : Path}
    (valid : known.Valid) (normal : path.IsNormal)
    (found : alternate? known disk path = some alternate) {r : Report} (ofRun : r.OfRun)
    (about : r.document.path = alternate) :
    alternate? (known.record r) disk path = some alternate := by
  have other := (other_of_alternate? valid normal found).2
  have source := Associations.source?_record valid ofRun path
  by_cases reported : r.ReportsOn path
  · rw [if_pos reported, about] at source
    rw [alternate?, source]
    exact if_neg other
  · rw [if_neg reported] at source
    rw [alternate?_congr source, found]

theorem world_retry (a : Analyzer) (d : Document) (first : Report) (known : Associations)
    (alternate : Document) (w : World) :
    (retry a d first known alternate w).world = (a.analyze alternate w).2 := by
  unfold retry
  split
  · next ran => rw [ran]
  · next ran => rw [ran]

namespace Call

variable {call : Call} {known : Associations}

/-- What a call gives when its runs give `first` and, if there is one, `second?`. -/
def answered (path : Path) (first : Except RunError Report)
    (second? : Option (Except RunError Report)) : Except RunError Report :=
  match second? with
  | some (.ok retry) => .ok (retry.ensureEntry path)
  | _ => first

theorem Course.result_eq {outcome : Outcome} (course : call.Course known outcome) :
    outcome.result =
      answered call.document.path call.first.result ((call.second? known).map Run.result) := by
  cases course with
  | failed broken => rw [second?_of_error broken, broken]; rfl
  | alone completed last same => rw [last, completed]; rfl
  | retryFailed completed next broken => rw [next, Option.map_some, broken, completed]; rfl
  | retried completed next completed' => rw [next, Option.map_some, completed']; rfl

theorem reports_eq (call : Call) (known : Associations) : call.reports known =
    (call.first.result :: ((call.second? known).map Run.result).toList).filterMap
      Except.toOption := by
  rw [reports, runs]
  cases call.second? known <;> simp [List.filterMap_cons]

/-- What a call has taught it does not teach again. -/
theorem foldl_record_reports (valid : known.Valid) :
    (call.reports known).foldl .record ((call.reports known).foldl .record known) =
      (call.reports known).foldl .record known := by
  cases completed : call.first.result with
  | error e => simp [reports_eq, second?_of_error completed, completed, Except.toOption,
      List.filterMap_cons]
  | ok report =>
      have ofRun : report.OfRun := (call.first.ofRun_result call.isNormal_document completed).2
      have again := Associations.record_record valid ofRun
      cases next : call.second? known with
      | none => simp [reports_eq, next, completed, Except.toOption, again]
      | some second =>
          have follows : call.Follows known second := second?_eq_some_iff.mp next
          obtain ⟨report', completed', clean, _⟩ := follows.clean
          cases completed.symm.trans completed'
          have nothing : ∀ a : Associations, a.record report = a :=
            fun a => a.record_of_total ofRun clean
          cases ended : second.result with
          | error e => simp [reports_eq, next, completed, ended, Except.toOption, again,
              List.filterMap_cons]
          | ok retry =>
              have ofRun' := (second.ofRun_result (follows.other valid).1 ended).2
              have again' := Associations.record_record valid ofRun'
              simp [reports_eq, next, completed, ended, Except.toOption, nothing, again']

/-- After a call the same alternate is found for its document as before. -/
theorem alternate?_outcome (valid : known.Valid) {report : Report}
    (completed : call.first.result = .ok report) (clean : report.total = 0) :
    alternate? ((call.outcome known).associations.record report) call.atLookup.disk
        call.document.path =
      alternate? (known.record report) call.atLookup.disk call.document.path := by
  have ofRun : report.OfRun := (call.first.ofRun_result call.isNormal_document completed).2
  have nothing : ∀ a : Associations, a.record report = a :=
    fun a => a.record_of_total ofRun clean
  rw [nothing, nothing]
  have course := call.course_outcome known
  generalize call.outcome known = outcome at course
  cases course with
  | failed broken => cases completed.symm.trans broken
  | alone completed' last same =>
      rw [Except.ok.inj (completed'.symm.trans completed), nothing]
  | retryFailed completed' next broken =>
      rw [Except.ok.inj (completed'.symm.trans completed), nothing]
  | @retried _ retry second completed' next ended =>
      rw [Except.ok.inj (completed'.symm.trans completed), nothing]
      have follows : call.Follows known second := second?_eq_some_iff.mp next
      obtain ⟨own, ofRun'⟩ := second.ofRun_result (follows.other valid).1 ended
      obtain ⟨report', completed'', _, path, found, read⟩ := follows.clean
      rw [← Except.ok.inj (completed.symm.trans completed''), nothing] at found
      have normal := (other_of_alternate? valid call.isNormal_document found).1
      obtain ⟨content, _, alternate⟩ := Document.exists_of_read read
      have about : retry.document.path = path := by
        rw [own, alternate]
        exact normal
      rw [alternate?_record valid call.isNormal_document found ofRun' about, found]

/-- The call made once more, in a world that may have come further. -/
def again (call : Call) (w : World) : Call := { call with world := w }

variable {w : World}

section Steady

theorem result_first_again (steady : call.analyzer.host.Steady call.world.disk)
    (same : w.disk = call.world.disk) : (call.again w).first.result = call.first.result :=
  (Analyzer.analyze_of_steady steady same call.document).1

variable (still : call.changes = .still) (steady : call.analyzer.host.Steady call.world.disk)

include still steady

/-- Nothing changes the files during such a call. -/
theorem disk_kept (d : Document) : call.first.after.disk = call.world.disk ∧
    call.atLookup.disk = call.world.disk ∧ call.atReading.disk = call.world.disk ∧
    (call.runOf d).world.disk = call.world.disk := by
  have kept : call.first.after.disk = call.world.disk :=
    (Analyzer.analyze_of_steady steady rfl call.document).2
  have lookup : call.atLookup.disk = call.world.disk := by rw [atLookup, still]; exact kept
  have reading : call.atReading.disk = call.world.disk := by rw [atReading, still]; exact lookup
  have retry : (call.runOf d).world.disk = call.world.disk := by rw [runOf, still]; exact reading
  exact ⟨kept, lookup, reading, retry⟩

theorem disk_outcome : (call.outcome known).world.disk = call.world.disk := by
  have kept := disk_kept still steady
  unfold outcome
  split
  · exact (kept call.document).1
  · dsimp only
    split
    · exact (kept call.document).1
    · split
      · exact (kept call.document).2.1
      · split
        · exact (kept call.document).2.2.1
        · next d read =>
            rw [world_retry]
            exact (Analyzer.analyze_of_steady steady (kept d).2.2.2 d).2

variable (same : w.disk = call.world.disk)

include same

theorem result_runOf_again (d : Document) :
    ((call.again w).runOf d).result = (call.runOf d).result := by
  have steady' : (call.again w).analyzer.host.Steady (call.again w).world.disk := by
    rw [again, same]
    exact steady
  have kept := (disk_kept still steady d).2.2.2
  have kept' := (@disk_kept (call.again w) still steady' d).2.2.2
  exact (Analyzer.analyze_of_steady steady (kept'.trans same) d).1.trans
    (Analyzer.analyze_of_steady steady kept d).1.symm

/-- The second runs of two such calls end alike when they look for the same alternate. -/
theorem result_second?_again {known' : Associations}
    (alike : ∀ report, call.first.result = .ok report → report.total = 0 →
      alternate? (known'.record report) call.atLookup.disk call.document.path =
        alternate? (known.record report) call.atLookup.disk call.document.path) :
    ((call.again w).second? known').map Run.result = (call.second? known).map Run.result := by
  have steady' : (call.again w).analyzer.host.Steady (call.again w).world.disk := by
    rw [again, same]
    exact steady
  have kept := disk_kept still steady call.document
  have kept' := @disk_kept (call.again w) still steady' call.document
  have lookup : (call.again w).atLookup.disk = call.atLookup.disk :=
    (kept'.2.1.trans same).trans kept.2.1.symm
  have reading : (call.again w).atReading.disk = call.atReading.disk :=
    (kept'.2.2.1.trans same).trans kept.2.2.1.symm
  have own : (call.again w).document = call.document := rfl
  rw [second?, second?, result_first_again steady same, lookup, reading, own]
  cases completed : call.first.result with
  | error e => rfl
  | ok report =>
      change Option.map _ (if _ then _ else _) = Option.map _ (if _ then _ else _)
      split
      · rfl
      · next clean =>
          rw [alike report completed (by omega)]
          cases alternate? (known.record report) call.atLookup.disk call.document.path with
          | none => rfl
          | some path =>
              rw [Option.bind_some, Option.bind_some, Option.map_map, Option.map_map]
              exact Option.map_congr fun d _ => result_runOf_again still steady same d

/-- Made once more, a call gives the same result and teaches nothing new. -/
theorem outcome_again (valid : known.Valid) :
    ((call.again w).outcome (call.outcome known).associations).result =
        (call.outcome known).result ∧
      ((call.again w).outcome (call.outcome known).associations).associations =
        (call.outcome known).associations := by
  have first := result_first_again steady same
  have second := result_second?_again still steady same fun report completed clean =>
    alternate?_outcome valid completed clean
  have reports : (call.again w).reports (call.outcome known).associations =
      call.reports known := by
    rw [reports_eq, reports_eq, first, second]
  refine ⟨?_, ?_⟩
  · rw [(course_outcome (call.again w) _).result_eq, (call.course_outcome known).result_eq,
      first, second]
    rfl
  · rw [associations_outcome (call.again w), reports, call.associations_outcome]
    exact foldl_record_reports valid

end Steady

end Call

/-- As long as the files stay and the analyzer answers each call as it always does, a second
call for a document gives what the first one gave, be it a report or an error, and nothing more
is learned from it. -/
theorem analyze_twice (earlier : List Call) (a : Analyzer) (path : Path) (language : String)
    (version : Int) (content : List UInt8) (w : World) (steady : a.host.Steady w.disk) :
    let known := learned .empty earlier
    let d := Document.ofContent path language version content
    let once := analyze a d known w
    let twice := analyze a d once.associations once.world
    twice.result = once.result ∧ twice.associations = once.associations ∧
      once.world.disk = w.disk ∧ twice.world.disk = w.disk := by
  intro known d once twice
  have valid : known.Valid := valid_learned Associations.valid_empty earlier
  let call : Call := ⟨a, path, language, version, content, w, .still⟩
  have first : call.outcome known = once := call.outcome_of_still known rfl
  have second : (call.again once.world).outcome once.associations = twice :=
    (call.again once.world).outcome_of_still once.associations rfl
  have kept : once.world.disk = w.disk := by
    rw [← first]
    exact Call.disk_outcome rfl steady
  obtain ⟨result, associations⟩ := @Call.outcome_again call known once.world rfl steady kept valid
  rw [first, second] at result associations
  refine ⟨result, associations, kept, ?_⟩
  have steady' : a.host.Steady once.world.disk := kept ▸ steady
  rw [← second]
  exact (@Call.disk_outcome (call.again once.world) once.associations rfl steady').trans kept

/-- A header that only its source reports on: the first call learns from the source, and the
second one goes the same way. -/
theorem analyze_twice_header :
    let disk : Disk := ⟨.directory [("tidy", .file [] true), ("a.h", .file [] false),
      ("a.c", .file [] false)], ⟨"/"⟩⟩
    let output := "/a.h:1:1: error: bad\nx\n^\n".toUTF8.toList
    let host : Host := ⟨[], fun _ disk s =>
      (.finished 0 (if s.args.head? = some "/a.c" then output else []) [], disk)⟩
    let configuration := { Configuration.default with executable := "/tidy" }
    let a : Analyzer := ⟨Profile.ofConfiguration disk configuration [], host⟩
    let d := Document.ofContent ⟨"/a.h"⟩ "c" 0 []
    let once := analyze a d .empty ⟨disk, []⟩
    let twice := analyze a d once.associations once.world
    once.associations.source? ⟨"/a.h"⟩ = some ⟨"/a.c"⟩ ∧ host.Steady disk ∧
      twice.result = once.result ∧ twice.associations = once.associations := by
  intro disk output host configuration a d once twice
  have steady : host.Steady disk := ⟨_, fun _ _ => rfl⟩
  obtain ⟨result, associations, _⟩ := analyze_twice [] a ⟨"/a.h"⟩ "c" 0 [] ⟨disk, []⟩ steady
  exact ⟨by decide +kernel, steady, result, associations⟩

end Fallback

end LintReport
