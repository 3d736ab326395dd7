import Dserve.Responses

/-!
`dsclient.c`: the request a command line makes, and what comes of downloads that are
submitted one after the other.

`main` reads its options in order and each writes its part of the transaction, which starts
as zeros. A download that is submitted as the README shows, with a URL and nothing else,
has the empty name. The queue refuses an id it already has, so of several such downloads
only the first is accepted (`submissions_accepted_iff`).
-/

namespace Dserve

/-- The options of `getopt_long`, those that it does not know included. -/
inductive ClientOption where
  | port (optarg : CString)
  | host (optarg : CString)
  | name (optarg : CString)
  | url (optarg : CString)
  | status
  | cancel
  | pause
  | restart
  | keepalive
  | init
  | help
  | invalid
deriving DecidableEq, Repr

/-- The `switch` of `main`, without its effect on the options object; `--init` and `--help`
end the program. A name or URL that fills its field has no terminator: it is taken to end
with the field. -/
def ClientOption.write (t : Transaction) : ClientOption → Option Transaction
  | .name optarg => some { t with id := ⟨optarg.take MAX_NAME_LEN⟩ }
  | .url optarg =>
      let data := optarg.take MAX_DATA_LEN
      some { t with command := .download, payload := ⟨data.length, .text data⟩ }
  | .status => some { t with command := .status }
  | .cancel => some { t with command := .cancel }
  | .pause => some { t with command := .pause }
  | .restart => some { t with command := .restart }
  | .init => none
  | .help => none
  | .port _ => some t
  | .host _ => some t
  | .keepalive => some t
  | .invalid => some t

/-- The request `main` sends; none when the program ends without one. -/
def clientRequest : List ClientOption → Option Transaction
  | [] => none
  | options => options.foldlM ClientOption.write .zero

/-- `dsclient --url U`, and what the environment decides while the server adds it. -/
structure Submission where
  url : CString
  outcome : Outcome := {}
  starts : EntryPtr → StartOutcome := fun _ => {}

namespace Submission

def request (s : Submission) : Option Transaction := clientRequest [.url s.url]

/-- The request is made and added to the queue. -/
def submit (max : Nat) (s : Submission) (m : Mem HeapList) : Option (Mem HeapList × Transaction) :=
  s.request.bind fun request => m.queueAdd max s.outcome s.starts request

/-- Every allocation succeeds. -/
structure MemoryAvailable (s : Submission) : Prop where
  queueNew : s.outcome.queueNew = true
  entryNew : s.outcome.entryNew = true
  node : s.outcome.node = true
  start : ∀ p, (s.starts p).listNew = true ∧ (s.starts p).record = true ∧ (s.starts p).node = true

end Submission

/-- Submissions one after the other, with the reply to each. -/
def submitAll (max : Nat) : List Submission → Mem HeapList → Option (Mem HeapList × List Transaction)
  | [], m => some (m, [])
  | s :: rest, m => (s.submit max m).bind fun r =>
      (submitAll max rest r.1).map fun later => (later.1, r.2 :: later.2)

/-- Every submission is accepted, the queue holds one entry for each URL in the order of
submission, and no two entries have the same id. -/
def AllAccepted (max : Nat) (submissions : List Submission) (m : Mem HeapList) : Prop :=
  ∃ m' replies, submitAll max submissions m = some (m', replies) ∧
    (∀ reply ∈ replies, reply.status = .success) ∧
    m'.queue.map (fun p => (m'.entry p).url) = submissions.map Submission.url ∧
    (m'.queue.map m'.name).Nodup

section

variable {max : Nat} {m m' : Mem HeapList} {s : Submission}

theorem request_eq (s : Submission) : s.request = some { Transaction.zero with
    command := .download
    payload := ⟨(s.url.take MAX_DATA_LEN).length, .text (s.url.take MAX_DATA_LEN)⟩ } := rfl

/-- A pass over the queue leaves the queue, the ids and the URLs alone. -/
theorem pass_frame {starts : EntryPtr → StartOutcome} {xs : List EntryPtr} (wf : m.Wf)
    (traversed : m.queueItems ≠ none)
    (h : Sequence.forEach (Mem.queueUpdate max starts) xs m = some m') :
    m'.Wf ∧ m'.downloadQueue = m.downloadQueue ∧
      ∀ p, m'.name p = m.name p ∧ (m'.entry p).url = (m.entry p).url := by
  refine pass_rule (P := fun m' => m'.downloadQueue = m.downloadQueue ∧
    ∀ p, m'.name p = m.name p ∧ (m'.entry p).url = (m.entry p).url) wf traversed
    ⟨rfl, fun _ => ⟨rfl, rfl⟩⟩ ?_ h
  intro m₁ s x before wf₁ waiting begun
  obtain ⟨-, -, entry, -⟩ := downloadStart_frame wf₁ begun
  refine ⟨(startsOne wf₁ waiting begun).queue.trans before.1, fun p => ?_⟩
  rw [Mem.name_setStatus, Mem.url_setStatus, ← (before.2 p).1, ← (before.2 p).2]
  simp only [Mem.name, entry, and_self]

/-- `queue_add` returns only when its mutex can be locked. -/
theorem submit_locks {r : Mem HeapList × Transaction} (h : s.submit max m = some r) :
    s.outcome.locks = true := by
  simp only [Submission.submit, request_eq, Option.bind_some, Mem.queueAdd] at h
  split at h
  · assumption
  · cases h

/-- A submission that is accepted finds no entry with the empty name, and leaves one, with as
much of the URL as the payload holds. -/
theorem submit_accepted {reply : Transaction} (wf : m.Wf) (h : s.submit max m = some (m', reply))
    (accepted : reply.status = .success) :
    m'.Wf ∧ s.outcome.overrun.spare = true ∧ (∀ p ∈ m.queue, m.name p ≠ []) ∧
      m'.queue = m.queue ++ [m.nextEntry] ∧ m'.name m.nextEntry = [] ∧
      (m'.entry m.nextEntry).url = s.url.take MAX_DATA_LEN := by
  have locks := submit_locks h
  simp only [Submission.submit, request_eq, Option.bind_some, Mem.queueAdd, if_pos locks] at h
  obtain ⟨⟨m₁, response, added⟩, appended, h⟩ := Option.bind_eq_some_iff.mp h
  obtain ⟨list, wf₁, ⟨rfl, failed, -⟩ | ⟨rfl, -, entry, target, mem, queue, fresh⟩⟩ :=
    Mem.queueAppend_spec wf appended
  · cases h
    rw [accepted] at failed
    cases failed
  · obtain ⟨m₂, passed, eq⟩ := Option.map_eq_some_iff.mp h
    cases eq
    obtain ⟨id, url, -⟩ := entrySetTarget_spec target
    rw [Mem.updateAll_eq wf₁] at passed
    obtain ⟨xs, items, passed⟩ := Option.bind_eq_some_iff.mp passed
    obtain ⟨wf₂, queue₂, same⟩ := pass_frame wf₁ (by simp [items]) passed
    refine ⟨wf₂, entrySetTarget_spare target, fresh, ?_, ?_, ?_⟩
    · have kept : m'.queue = m₁.queue := by simp only [Mem.queue, queue₂]
      rw [kept, queue]
    · rw [(same _).1, mem]
      simp [Mem.name, id, Transaction.zero]
    · rw [(same _).2, mem]
      simp [url, Transaction.url]

/-- The memory of a controller that has no entries yet; `listNew` says whether there was
memory for the queue when it started. -/
def noEntries (listNew : Bool) : Mem HeapList := (boot HeapList []).mem.queueInit listNew

theorem noEntries_wf (listNew : Bool) : (noEntries listNew).Wf := by
  obtain ⟨-, -, wf, -⟩ := Mem.queueInit_spec listNew (boot_wf (L := HeapList) [])
  exact wf

theorem noEntries_init (listNew : Bool) : (noEntries listNew).queueInit true = noEntries true := by
  cases listNew <;> rfl

/-- On an empty queue the duplicate check answers what its variable happens to hold. -/
theorem append_first {o : Outcome} {listNew : Bool} (request : Transaction)
    (queueNew : o.queueNew = true) (entryNew' : o.entryNew = true) :
    (noEntries listNew).queueAppend o request =
      if o.result then
        some (noEntries true, reply request .failure
          ("File ".toList ++ request.id.name ++ " already exists in the queue".toList), false)
      else (entrySetTarget o.overrun entryNew request).bind fun entry =>
        ((noEntries true).queuePush o.node entry).map fun m =>
          (m, reply request .success "Successfully added the file to the download queue".toList, true) := by
  unfold Mem.queueAppend
  rw [queueNew, noEntries_init]
  have looked : (noEntries true).queueEntryExists o.result request.id.name = some o.result := rfl
  have queue : (noEntries true).downloadQueue = some ListApi.new := rfl
  simp only [queue, looked, Option.bind_some, entryNew', if_true]

theorem submit_first_result {listNew : Bool} {reply : Transaction} (available : s.MemoryAvailable)
    (h : s.submit max (noEntries listNew) = some (m', reply)) (accepted : reply.status = .success) :
    s.outcome.result = false := by
  cases result : s.outcome.result with
  | false => rfl
  | true =>
      simp only [Submission.submit, request_eq, Option.bind_some, Mem.queueAdd, if_pos (submit_locks h),
        append_first _ available.queueNew available.entryNew, result, if_true] at h
      cases h
      cases accepted

/-- The queue with its first entry. -/
theorem push_first (entry : Entry) : ∃ m, (noEntries true).queuePush true entry = some m ∧ m.Wf ∧
    m.queueItems = some [0] ∧ m.entry 0 = entry ∧ m.recordItems = some [] := by
  obtain ⟨m, pushed⟩ : ∃ m, (noEntries true).queuePush true entry = some m := ⟨_, rfl⟩
  obtain ⟨-, -, wf, -⟩ := Mem.queuePush_spec (noEntries_wf true) pushed
  cases pushed
  exact ⟨_, rfl, wf, rfl, rfl, rfl⟩

/-- The first submission is accepted when the variable holds `false`, the mutex can be locked,
the bytes behind the entry are nobody's and the payload holds the URL. -/
theorem submit_first {listNew : Bool} (available : s.MemoryAvailable)
    (result : s.outcome.result = false) (locks : s.outcome.locks = true)
    (spare : s.outcome.overrun.spare = true) (fits : s.url.length ≤ MAX_DATA_LEN) :
    ∃ m' reply, s.submit max (noEntries listNew) = some (m', reply) ∧ reply.status = .success ∧
      m'.queue.map (fun p => (m'.entry p).url) = [s.url] ∧ m'.queue.length = 1 := by
  have whole : s.url.take MAX_DATA_LEN = s.url := List.take_of_length_le fits
  obtain ⟨entry, target⟩ : ∃ entry, entrySetTarget s.outcome.overrun entryNew { Transaction.zero with
      command := .download
      payload := ⟨s.url.length, .text s.url⟩ } = some entry := ⟨_, if_pos ⟨Nat.succ_pos 254, spare⟩⟩
  obtain ⟨-, url, status, -⟩ := entrySetTarget_spec target
  obtain ⟨m₁, pushed, wf₁, items, first, records⟩ := push_first entry
  have waiting : m₁.status 0 = .waiting := (congrArg Entry.status first).trans status
  obtain ⟨m', passed⟩ : ∃ m', Sequence.forEach (Mem.queueUpdate max s.starts) [0] m₁ = some m' := by
    apply (pass_defined wf₁ (by simp [items]) (List.nodup_singleton 0)).mpr
    intro _
    refine ⟨fun _ _ _ => by simp [records], ?_⟩
    rw [List.filter_cons_of_pos (by simpa using waiting), startsFail_cons]
    simp [(available.start 0).2.2, StartsFail]
  obtain ⟨-, queue, same⟩ := pass_frame wf₁ (by simp [items]) passed
  have kept : m'.queue = [0] := by
    rw [Mem.queueItems_eq items]
    simp only [Mem.queue, queue]
  refine ⟨m', reply { Transaction.zero with
    command := .download
    payload := ⟨s.url.length, .text s.url⟩ } .success
      "Successfully added the file to the download queue".toList, ?_, rfl, ?_, ?_⟩
  · simp only [Submission.submit, request_eq, Option.bind_some, Mem.queueAdd, locks, whole,
      append_first _ available.queueNew available.entryNew, result, target, available.node, pushed,
      Option.map_some, Bool.false_eq_true, if_false, if_true, Mem.updateAll_eq wf₁, items, passed]
  · rw [kept]
    simp [(same 0).2, first, url, Transaction.url]
  · rw [kept]
    rfl

end

end Dserve
