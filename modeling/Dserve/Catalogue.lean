import Dserve.Answers
import Dserve.Lib.Simulation
import Dserve.Replies
import Dserve.Sound
import Dserve.Turns

/-!
What the queue is for: a catalogue of downloads.

Seen from outside, the controller keeps a list of downloads, each with a name and a URL. A `DOWNLOAD`
puts one at the end, or is refused; a `CANCEL` takes one out; the other requests look one up. `Serves`
says which replies a request may get, and what is in the catalogue afterwards. Nothing of the entries,
the statuses, the threads, their records and the lists in the heap is left in it.

`controller_refines` says that the controller is such a catalogue: whatever lawful lists it runs on,
and however its steps and those of the download threads are mixed, the requests it answers and the
replies it gives are a trace of the catalogue, each request as if it had been served at once; and
the queue holds what is in the catalogue, unless it was lost with its first node. `replies_tell`
computes the queue from the replies.
-/

namespace Dserve

/-! ### The catalogue -/

/-- A download, as a client sees it. -/
structure Item where
  name : CString
  url : CString
deriving DecidableEq, Repr

/-- The download with the name is in the catalogue. -/
def Known (cat : List Item) (name : CString) : Prop := ∃ x ∈ cat, x.name = name

instance (cat : List Item) (name : CString) : Decidable (Known cat name) := by
  unfold Known
  infer_instance

/-- The texts with which a `DOWNLOAD` is refused. -/
def refusals (request : Transaction) : List CString :=
  ["File ".toList ++ request.id.name ++ " already exists in the queue".toList,
    "Not enough memory to create a download queue".toList,
    "Not enough memory to create a new download entry".toList]

/-- The reply to a `DOWNLOAD` that is accepted. -/
def addedReply (request : Transaction) : Transaction :=
  reply request .success "Successfully added the file to the download queue".toList

/-- A request that only names a download. -/
def Command.Names : Command → Prop
  | .pause => True
  | .cancel => True
  | .restart => True
  | _ => False

/-- The replies a request may get, and what is in the catalogue afterwards. -/
inductive Serves (cat : List Item) (r : Transaction) : Transaction → List Item → Prop where
  | added : r.command = .download → ¬ Known cat r.id.name →
      Serves cat r (addedReply r) (cat ++ [⟨r.id.name, r.url⟩])
  | refused {text : CString} : r.command = .download → text ∈ refusals r →
      Serves cat r (reply r .failure text) cat
  | listed : r.command = .status → Serves cat r (reply r .success []) cat
  | empty : r.command = .status → cat = [] →
      Serves cat r (reply r .failure "The queue is empty".toList) cat
  | unknown : r.command.Names → ¬ Known cat r.id.name → Serves cat r (notFoundReply r) cat
  | paused {ret : Bool} : r.command = .pause → Known cat r.id.name →
      Serves cat r (pauseReply r ret) cat
  | restarted : r.command = .restart → Known cat r.id.name → Serves cat r (restartReply r) cat
  | cancelled : r.command = .cancel → Known cat r.id.name →
      Serves cat r (cancelReply r true) (cat.eraseP fun x => decide (x.name = r.id.name))
  | unhandled {response : Transaction} : ¬ r.command.Handled → Serves cat r response cat

/-- What is seen of the controller: a download that is loaded from the index file, a request and
its last reply. -/
inductive Shown where
  | loaded (x : Item)
  | served (request reply : Transaction)
deriving DecidableEq

inductive Catalogue.Step (cat : List Item) : Shown → List Item → Prop where
  | loaded {x : Item} : Catalogue.Step cat (.loaded x) (cat ++ [x])
  | served {request reply : Transaction} {cat' : List Item} :
      Serves cat request reply cat' → Catalogue.Step cat (.served request reply) cat'

/-- A catalogue of downloads. -/
def catalogue : Component (List Item) Shown := ⟨Catalogue.Step⟩

/-! ### What the controller shows -/

def Entry.item (e : Entry) : Item := ⟨e.id.name, e.url⟩

/-- The catalogue that the queue holds. -/
def Mem.catalogue {L : Type → Type} [ListApi L] (m : Mem L) : List Item :=
  m.queue.map fun p => (m.entry p).item

/-- What a step of the controller shows. -/
def Config.shown {L : Type → Type} (c : Config L) : Action → Config L → List Shown
  | .control _, c' =>
      match c.pc with
      | .respond => [.served c.request c.response]
      | .loading (e :: _) =>
          match c'.pc with
          | .loading _ => [.loaded e.item]
          | _ => []
      | _ => []
  | _, _ => []

/-- The controller, with what it shows. -/
def exhibit (L : Type → Type) [ListApi L] (max : Nat) : Machine (Noted (Config L) Shown) Action :=
  (controller L max).noted Config.shown

/-- The downloads that were loaded. -/
def loadedItems (events : List Shown) : List Item :=
  events.filterMap fun
    | .loaded x => some x
    | .served _ _ => none

/-- First the downloads are loaded, and then requests are served. -/
def LoadsFirst (events : List Shown) : Prop :=
  ∃ served : List (Transaction × Transaction),
    events = (loadedItems events).map .loaded ++ served.map fun r => .served r.1 r.2

/-- The request that is worked on has the command for it. -/
def Task.Treats (command : Command) : Task → Prop
  | .pause => command = .pause
  | .cancel => command = .cancel
  | .restart => command = .restart
  | .save _ => True

def Pc.Treats (command : Command) : Pc → Prop
  | .add => command = .download
  | .status => command = .status
  | .report _ => command = .status
  | .lookup k => k.Treats command
  | .assign k _ => k.Treats command
  | .stop k _ => k.Treats command
  | .kill k _ _ => k.Treats command
  | .unlink _ => command = .cancel
  | _ => True

/-- How what the queue holds is related to the catalogue: in the catalogue a request is served when
its reply is sent, in the queue before that. When the process ends there is nothing to be said. -/
def Config.Shows {L : Type → Type} (c : Config L) (held cat : List Item) : Prop :=
  match c.pc with
  | .load _ => held = cat
  | .loading _ => held = cat
  | .idle => held = cat
  | .add => held = cat
  | .visit _ => if c.installed then Serves cat c.request c.response held else held = cat
  | .count _ _ => if c.installed then Serves cat c.request c.response held else held = cat
  | .start _ _ => if c.installed then Serves cat c.request c.response held else held = cat
  | .mark _ _ => if c.installed then Serves cat c.request c.response held else held = cat
  | .status => held = cat
  | .report _ => held = cat
  | .lookup _ => held = cat
  | .assign k _ => k.phase = .answering → held = cat
  | .stop k _ => k.phase = .answering → held = cat
  | .kill k _ _ => k.phase = .answering → held = cat
  | .unlink _ => held = cat
  | .saving _ => True
  | .reset _ _ => True
  | .write _ _ => True
  | .respond => Serves cat c.request c.response held
  | .exited => True
  | .crashed => True

/-! ### The queue as a catalogue -/

namespace Mem

variable {L : Type → Type} [ListApi L] {m m' : Mem L}

/-- The catalogue is in the queue and in the names and URLs of its entries. -/
theorem catalogue_congr (queue : m'.queue = m.queue)
    (same : ∀ p ∈ m.queue, (m'.entry p).item = (m.entry p).item) : m'.catalogue = m.catalogue := by
  unfold catalogue
  rw [queue]
  exact List.map_congr_left same

@[simp] theorem catalogue_setStatus (m : Mem L) (p : EntryPtr) (s : EntryStatus) :
    (m.setStatus p s).catalogue = m.catalogue := by
  refine catalogue_congr rfl fun q _ => ?_
  by_cases own : q = p
  · subst own
    simp [setStatus, setEntry, Entry.item]
  · simp [setStatus, setEntry, own]

theorem known_iff {name : CString} :
    Known m.catalogue name ↔ ∃ p ∈ m.queue, m.name p = name := by
  unfold Known catalogue
  simp only [List.mem_map, exists_exists_and_eq_and]
  rfl

/-- The queue holds these downloads, unless it cannot be traversed any more. -/
def Holds (m : Mem L) (held : List Item) : Prop := m.queueItems ≠ none → m.catalogue = held

theorem queueItems_congr (queue : m'.downloadQueue = m.downloadQueue) :
    m'.queueItems = m.queueItems := by
  unfold queueItems
  rw [queue]

theorem Holds.congr {held : List Item} (holds : m.Holds held)
    (queue : m'.downloadQueue = m.downloadQueue)
    (same : ∀ p ∈ m.queue, (m'.entry p).item = (m.entry p).item) : m'.Holds held := by
  intro traversed
  rw [queueItems_congr queue] at traversed
  rw [catalogue_congr (by simp only [Mem.queue, queue]) same]
  exact holds traversed

theorem Holds.setStatus {held : List Item} (holds : m.Holds held) (p : EntryPtr) (s : EntryStatus) :
    (m.setStatus p s).Holds held := by
  intro traversed
  rw [catalogue_setStatus]
  exact holds traversed

/-- A queue with something in it can be traversed. -/
theorem traversed_of_mem {p : EntryPtr} (member : p ∈ m.queue) : m.queueItems ≠ none := by
  intro lost
  unfold queueItems at lost
  unfold queue contents at member
  split at lost
  · cases lost
  · next list there =>
    rw [there, Option.map_some, Option.getD_some, ListApi.toList, lost] at member
    cases member

variable [LawfulListApi L]

theorem Holds.queueInit {held : List Item} (holds : m.Holds held) (listNew : Bool) (wf : m.Wf) :
    (m.queueInit listNew).Holds held := by
  intro traversed
  obtain ⟨list, init, -, queue⟩ := queueInit_spec listNew wf
  rw [catalogue_congr queue fun p _ => by rw [init]]
  apply holds
  intro lost
  apply traversed
  unfold Mem.queueInit
  split
  · exact lost
  · next none => simp [queueItems, none] at lost

omit [LawfulListApi L] in
/-- An entry that is appended is the last of the catalogue. -/
theorem catalogue_append {e : Entry} (below : ∀ p ∈ m.queue, p < m.nextEntry)
    (entry : m'.entry = Function.update m.entry m.nextEntry e)
    (queue : m'.queue = m.queue ++ [m.nextEntry]) : m'.catalogue = m.catalogue ++ [e.item] := by
  unfold catalogue
  rw [queue, entry, List.map_append]
  congr 1
  · apply List.map_congr_left
    intro p hp
    rw [Function.update_of_ne (Nat.ne_of_lt (below p hp))]
  · simp

theorem queuePush_traversed {node : Bool} {e : Entry} (wf : m.Wf)
    (h : m.queuePush node e = some m') : m.queueItems ≠ none := by
  obtain ⟨l, there, h⟩ := Option.bind_eq_some_iff.mp h
  obtain ⟨l', appended, -⟩ := Option.map_eq_some_iff.mp h
  obtain ⟨-, xs, items, -⟩ := LawfulListApi.append (wf.downloadQueue l there) appended
  simp [queueItems, there, items]

/-- The entry of a `DOWNLOAD` is put into a queue that can be traversed. -/
theorem queueAppend_traversed {o : Outcome} {request response : Transaction} (wf : m.Wf)
    (h : m.queueAppend o request = some (m', response, true)) : m.queueItems ≠ none := by
  intro lost
  obtain ⟨-, -, wfInit, -⟩ := queueInit_spec o.queueNew wf
  have init : m.queueInit o.queueNew = m := by
    unfold Mem.queueInit
    split
    · rfl
    · next none => simp [queueItems, none] at lost
  simp only [queueAppend] at h
  split at h
  · cases h
  · obtain ⟨entryExists, -, h⟩ := Option.bind_eq_some_iff.mp h
    split at h
    · cases h
    · split at h
      · obtain ⟨e, -, h⟩ := Option.bind_eq_some_iff.mp h
        obtain ⟨m'', pushed, -⟩ := Option.map_eq_some_iff.mp h
        exact queuePush_traversed wfInit pushed (init.symm ▸ lost)
      · cases h

theorem findEntry_traversed {id : CString} {found : Option EntryPtr} (wf : m.Wf)
    (h : m.findEntry id = some found) : m.queueItems ≠ none := by
  intro lost
  unfold findEntry getItem at h
  unfold queueItems at lost
  split at lost
  · cases lost
  · next list there =>
    rw [there] at h
    simp [LawfulListApi.getItem (wf.downloadQueue list there), lost] at h

theorem Holds.downloadStart {held : List Item} {p : EntryPtr} {o : StartOutcome}
    (holds : m.Holds held) (wf : m.Wf) (h : m.downloadStart p o = some m') : m'.Holds held := by
  obtain ⟨-, list, ⟨rfl, -⟩ | ⟨handle, -, rfl, -⟩⟩ := downloadStart_spec wf h
  · exact holds.congr rfl fun _ _ => rfl
  · exact holds.congr rfl fun _ _ => rfl

theorem Holds.finishStop {held : List Item} {r : RecordPtr} {key : CString} {ret : Bool}
    (holds : m.Holds held) (wf : m.Wf) (h : m.finishStop r key = some (ret, m')) : m'.Holds held := by
  obtain ⟨list, rfl, -, -⟩ := finishStop_spec wf h
  exact holds.congr rfl fun _ _ => rfl

/-- An entry that is there is found, and the item with its name is taken out. -/
theorem Holds.removeEntry {held : List Item} {id : CString} {ret : Bool} {p : EntryPtr}
    (holds : m.Holds held) (wf : m.Wf) (h : m.removeEntry id = some (ret, m')) (member : p ∈ m.queue)
    (same : m.name p = id) :
    ret = true ∧ m'.Holds (held.eraseP fun x => decide (x.name = id)) := by
  unfold Mem.removeEntry at h
  cases there : m.downloadQueue with
  | none => simp [queue, contents, there] at member
  | some list =>
      simp only [there] at h
      obtain ⟨⟨b, list'⟩, removed, eq⟩ := Option.map_eq_some_iff.mp h
      cases eq
      obtain ⟨-, xs, ys, items, sequence, after⟩ :=
        LawfulListApi.removeItem (wf.downloadQueue list there) removed
      rw [Sequence.removeItem_total] at sequence
      cases sequence
      have queue : m.queue = xs := by simp [Mem.queue, contents, ListApi.toList, there, items]
      rw [queue] at member
      constructor
      · rw [List.any_eq_true]
        exact ⟨p, member, by simpa using same⟩
      · intro traversed
        rw [← holds (by simp [queueItems, there, items]), catalogue, catalogue, queue, List.eraseP_map]
        rcases after with after | ⟨-, lost, -⟩
        · simp only [Mem.queue, contents, Option.map_some, ListApi.toList, after, Option.getD_some]
          rfl
        · exact absurd lost (by simpa [queueItems] using traversed)

theorem Holds.queueAppend {held : List Item} {o : Outcome} {request response : Transaction}
    (holds : m.Holds held) (wf : m.Wf)
    (h : m.queueAppend o request = some (m', response, false)) : m'.Holds held := by
  have init := holds.queueInit o.queueNew wf
  simp only [Mem.queueAppend] at h
  split at h
  · cases h
    exact init
  · obtain ⟨entryExists, -, h⟩ := Option.bind_eq_some_iff.mp h
    split at h
    · cases h
      exact init
    · split at h
      · obtain ⟨e, -, h⟩ := Option.bind_eq_some_iff.mp h
        obtain ⟨m'', -, eq⟩ := Option.map_eq_some_iff.mp h
        cases eq
      · cases h
        exact init

omit [LawfulListApi L] in
/-- What `queue_add_container` replies. -/
theorem queueAppend_reply {o : Outcome} {request response : Transaction} {added : Bool}
    (h : m.queueAppend o request = some (m', response, added)) :
    if added then response = addedReply request
    else ∃ text ∈ refusals request, response = reply request .failure text := by
  simp only [queueAppend] at h
  split at h
  · cases h
    exact ⟨_, by simp [refusals], rfl⟩
  · obtain ⟨entryExists, -, h⟩ := Option.bind_eq_some_iff.mp h
    split at h
    · cases h
      exact ⟨_, by simp [refusals], rfl⟩
    · split at h
      · obtain ⟨entry, -, h⟩ := Option.bind_eq_some_iff.mp h
        obtain ⟨m'', -, eq⟩ := Option.map_eq_some_iff.mp h
        cases eq
        exact rfl
      · cases h
        exact ⟨_, by simp [refusals], rfl⟩

end Mem

/-! ### One step -/

section

variable {L : Type → Type} [ListApi L] [LawfulListApi L] {max : Nat} {o : Outcome} {c c' : Config L}
  {held cat : List Item}

/-- What is known of the controller along a run. -/
structure Config.Kept (c : Config L) : Prop where
  wf : c.mem.Wf
  sound : Sound c.view
  ready : c.Ready

theorem Config.Kept.step {a : Action} (kept : c.Kept) (h : c.step max a = some c') : c'.Kept := by
  obtain ⟨wf, view⟩ := step_view kept.wf h
  exact ⟨wf, step_sound kept.sound view, kept.ready.step h⟩

theorem boot_kept (entries : List Entry) : (boot L entries).Kept :=
  ⟨boot_wf entries, boot_sound entries, boot_ready entries⟩

theorem Config.Kept.below (kept : c.Kept) : ∀ p ∈ c.mem.queue, p < c.mem.nextEntry := by
  have below := kept.sound.mem.queueBelow
  rwa [view_mem, Mem.abs_queue] at below

/-- The entry that is worked on has the name of the request. -/
theorem Config.Kept.subject (kept : c.Kept) {p : EntryPtr} (subject : c.pc.subject = some p) :
    p ∈ c.mem.queue ∧ c.mem.name p = c.request.id.name := by
  have named := kept.sound.named p subject
  rw [View.named, view_mem, Mem.abs_queue] at named
  have same := List.find?_some named
  exact ⟨List.mem_of_find?_eq_some named, of_decide_eq_true same⟩

theorem Config.Kept.known (kept : c.Kept) {p : EntryPtr} (holds : c.mem.Holds held)
    (subject : c.pc.subject = some p) : Known held c.request.id.name := by
  obtain ⟨member, same⟩ := kept.subject subject
  rw [← holds (Mem.traversed_of_mem member), Mem.known_iff]
  exact ⟨p, member, same⟩

omit [ListApi L] [LawfulListApi L] in
theorem subject_answering {k : Task} {p : EntryPtr}
    (pc : c.pc = .assign k p ∨ c.pc = .stop k p ∨ ∃ r, c.pc = .kill k p r)
    (answering : k.phase = .answering) : c.pc.subject = some p := by
  have own : k.subject p = some p := by cases k <;> first | rfl | cases answering
  rcases pc with pc | pc | ⟨r, pc⟩ <;> rw [pc] <;> exact own

theorem findEntry_known {found : Option EntryPtr} (wf : c.mem.Wf) (holds : c.mem.Holds held)
    (h : c.mem.findEntry c.request.id.name = some found) :
    found.isSome = true ↔ Known held c.request.id.name := by
  rw [← holds (Mem.findEntry_traversed wf h), Mem.findEntry_eq wf h, Mem.known_iff,
    List.find?_isSome]
  simp

omit [LawfulListApi L] in
/-- After the treatment of a status the reply is there, or nothing has changed. -/
theorem afterSwitch_shows {d d' : Config L} {k : Task} {p : EntryPtr} {ret : Bool}
    (h : d.afterSwitch k p ret = some d') (treats : k.Treats d.request.command)
    (holds : d.mem.Holds held) (installed : k.phase = .answering → d.installed = true)
    (same : k.phase = .answering → held = cat)
    (known : k.phase = .answering → Known cat d.request.id.name) :
    d'.mem.Holds held ∧ d'.Shows held cat ∧ d'.pc.Treats d'.request.command := by
  cases k with
  | pause =>
      cases h
      refine ⟨holds, ?_, trivial⟩
      show Serves cat d.request (pauseReply d.request ret) held
      rw [same rfl]
      exact .paused treats (known rfl)
  | cancel =>
      cases h
      exact ⟨holds, same rfl, treats⟩
  | restart =>
      obtain ⟨items, -, rfl⟩ := Option.map_eq_some_iff.mp h
      refine ⟨holds, ?_, trivial⟩
      show if d.installed then Serves cat d.request (restartReply d.request) held else held = cat
      rw [if_pos (installed rfl), same rfl]
      exact .restarted treats (known rfl)
  | save rest =>
      cases h
      exact ⟨holds, trivial, trivial⟩

/-- How a state of the controller is related to one of the catalogue. -/
structure Config.Exhibits (c : Config L) (cat : List Item) : Prop where
  kept : c.Kept
  treats : c.pc.Treats c.request.command
  shows : ∃ held, c.mem.Holds held ∧ c.Shows held cat

/-- What a step leaves: the events it shows, and the relation after it. -/
def Config.Moves (c : Config L) (a : Action) (c' : Config L) (cat : List Item) : Prop :=
  ∃ cat', catalogue.Trace cat (c.shown a c') cat' ∧ c'.pc.Treats c'.request.command ∧
    ∃ held, c'.mem.Holds held ∧ c'.Shows held cat'

omit [LawfulListApi L] in
/-- A step that shows nothing. -/
theorem unseen {a : Action} (none : c.shown a c' = [])
    (shows : c'.mem.Holds held ∧ c'.Shows held cat ∧ c'.pc.Treats c'.request.command) :
    c.Moves a c' cat :=
  ⟨cat, none ▸ .nil, shows.2.2, held, shows.1, shows.2.1⟩

omit [LawfulListApi L] in
theorem crash_moves {a : Action} (none : c.shown a c.crash = []) : c.Moves a c.crash cat :=
  ⟨cat, none ▸ .nil, trivial, c.mem.catalogue, fun _ => rfl, trivial⟩

/-- The steps of the controller itself. -/
theorem turn_shows (kept : c.Kept) (treats : c.pc.Treats c.request.command)
    (holds : c.mem.Holds held) (shows : c.Shows held cat) (turn : c.Turn max o c') :
    c.Moves (.control o) c' cat := by
  cases turn with
  | crash pc =>
      refine crash_moves ?_
      simp only [Config.shown]
      split
      · next responding => exact absurd responding pc
      · rfl
      · rfl
  | noQueue pc | loading pc =>
      simp only [Config.Shows, pc] at shows
      exact unseen (by simp [Config.shown, pc]) ⟨holds.queueInit _ kept.wf, shows, trivial⟩
  | loaded pc =>
      simp only [Config.Shows, pc] at shows
      have unset : ¬ c.installed = true := by
        have loading : c.phase = .loading := by simp [Config.phase, pc]
        exact fun set => (kept.ready (by simp [loading])).mp set loading
      refine unseen (by simp [Config.shown, pc]) ⟨holds, ?_, trivial⟩
      show if c.installed then _ else held = cat
      rw [if_neg unset]
      exact shows
  | noEntry pc =>
      simp only [Config.Shows, pc] at shows
      exact unseen (by simp [Config.shown, pc]) ⟨holds, shows, trivial⟩
  | @push e entries m pc pushed =>
      simp only [Config.Shows, pc] at shows
      obtain ⟨list, mem, -, queue⟩ := Mem.queuePush_spec kept.wf pushed
      have appended : m.catalogue = cat ++ [e.item] := by
        rw [← shows, ← holds (Mem.queuePush_traversed kept.wf pushed)]
        exact Mem.catalogue_append kept.below (by rw [mem]) queue
      have loaded : Catalogue.Step cat (.loaded e.item) (cat ++ [e.item]) := .loaded
      have single := Component.Trace.single (C := catalogue) loaded
      exact ⟨_, by simpa only [Config.shown, pc] using single, trivial, _, fun _ => appended, rfl⟩
  | @added m response items pc appended =>
      simp only [Config.Shows, pc] at shows
      have command : c.request.command = .download := by simpa only [pc, Pc.Treats] using treats
      have installed := kept.ready.answering (by simp [Config.phase, pc])
      have held := holds (Mem.queueAppend_traversed kept.wf appended)
      have text := Mem.queueAppend_reply appended
      simp only [if_true] at text
      obtain ⟨list, -, ⟨differ, -⟩ | ⟨-, -, e, target, mem, queue, fresh⟩⟩ :=
        Mem.queueAppend_spec kept.wf appended
      · cases differ
      · obtain ⟨id, url, -⟩ := entrySetTarget_spec target
        have new : m.catalogue = cat ++ [⟨c.request.id.name, c.request.url⟩] := by
          rw [← shows, ← held, Mem.catalogue_append kept.below (by rw [mem]) queue, Entry.item, id, url]
        have absent : ¬ Known cat c.request.id.name := by
          rw [← shows, ← held, Mem.known_iff]
          rintro ⟨p, member, same⟩
          exact fresh p member same
        refine unseen (by simp [Config.shown, pc]) ⟨fun _ => new, ?_, trivial⟩
        show if c.installed then Serves cat c.request response _ else _
        rw [if_pos installed, text]
        exact .added command absent
  | @refused m response pc appended =>
      simp only [Config.Shows, pc] at shows
      have command : c.request.command = .download := by simpa only [pc, Pc.Treats] using treats
      obtain ⟨text, listed, rfl⟩ := Mem.queueAppend_reply appended
      refine unseen (by simp [Config.shown, pc])
        ⟨holds.queueAppend kept.wf appended, ?_, trivial⟩
      show Serves cat c.request (reply c.request .failure text) held
      rw [shows]
      exact .refused command listed
  | visited pc installed =>
      simp only [Config.Shows, pc, if_pos installed] at shows
      exact unseen (by simp [Config.shown, pc]) ⟨holds, shows, trivial⟩
  | ready pc unset =>
      simp only [Config.Shows, pc, unset, Bool.false_eq_true, if_false] at shows
      exact unseen (by simp [Config.shown, pc]) ⟨holds, shows, trivial⟩
  | waiting pc | skip pc | free pc | full pc =>
      simp only [Config.Shows, pc] at shows
      exact unseen (by simp [Config.shown, pc]) ⟨holds, shows, trivial⟩
  | start pc begun =>
      simp only [Config.Shows, pc] at shows
      exact unseen (by simp [Config.shown, pc])
        ⟨holds.downloadStart kept.wf begun, shows, trivial⟩
  | mark pc =>
      simp only [Config.Shows, pc] at shows
      exact unseen (by simp [Config.shown, pc]) ⟨holds.setStatus _ _, shows, trivial⟩
  | unlisted pc none =>
      simp only [Config.Shows, pc] at shows
      have init := holds.queueInit o.queueNew kept.wf
      have nothing : held = [] := by
        rw [← init (by simp [Mem.queueItems, none])]
        simp [Mem.catalogue, Mem.queue, Mem.contents, none]
      refine unseen (by simp [Config.shown, pc]) ⟨init, ?_, trivial⟩
      show Serves cat c.request _ held
      rw [shows]
      exact .empty (by simpa only [pc, Pc.Treats] using treats) (shows.symm.trans nothing)
  | list pc =>
      simp only [Config.Shows, pc] at shows
      exact unseen (by simp [Config.shown, pc])
        ⟨holds.queueInit _ kept.wf, shows, by simpa only [pc, Pc.Treats] using treats⟩
  | listed pc =>
      simp only [Config.Shows, pc] at shows
      refine unseen (by simp [Config.shown, pc]) ⟨holds, ?_, trivial⟩
      show Serves cat c.request (reply c.request .success []) held
      rw [shows]
      exact .listed (by simpa only [pc, Pc.Treats] using treats)
  | report pc =>
      simp only [Config.Shows, pc] at shows
      have command : c.request.command = .status := by simpa only [pc, Pc.Treats] using treats
      exact unseen (by simp [Config.shown, pc]) ⟨holds, shows, command⟩
  | @notFound k pc entry =>
      simp only [Config.Shows, pc] at shows
      have absent : ¬ Known cat c.request.id.name := by
        rw [← shows, ← findEntry_known kept.wf holds entry]
        exact Bool.false_ne_true
      have names : c.request.command.Names := by
        have treats : k.Treats c.request.command := by simpa only [pc, Pc.Treats] using treats
        cases k with
        | save rest => exact absurd pc (kept.sound.lookup rest)
        | _ => rw [treats]; trivial
      refine unseen (by simp [Config.shown, pc]) ⟨holds, ?_, trivial⟩
      show Serves cat c.request (notFoundReply c.request) held
      rw [shows]
      exact .unknown names absent
  | toStop pc | toAssign pc =>
      simp only [Config.Shows, pc] at shows
      exact unseen (by simp [Config.shown, pc])
        ⟨holds, fun _ => shows, by simpa only [pc, Pc.Treats] using treats⟩
  | @leave k p c' pc entry _ after =>
      simp only [Config.Shows, pc] at shows
      have known : Known cat c.request.id.name := by
        rw [← shows, ← findEntry_known kept.wf holds entry]
        rfl
      have installed := kept.ready.answering (by simp [Config.phase, pc])
      exact unseen (by simp [Config.shown, pc])
        (afterSwitch_shows after (by simpa only [pc, Pc.Treats] using treats) holds
          (fun _ => installed) (fun _ => shows) (fun _ => known))
  | @assign k p c' pc after =>
      simp only [Config.Shows, pc] at shows
      exact unseen (by simp [Config.shown, pc])
        (afterSwitch_shows after (by simpa only [pc, Pc.Treats] using treats) (holds.setStatus _ _)
          (fun answering => kept.ready.answering (by simpa [Config.phase, pc] using answering)) shows
          (fun answering => shows answering ▸ kept.known holds (subject_answering (.inl pc) answering)))
  | @missing k p c' pc _ after =>
      simp only [Config.Shows, pc] at shows
      exact unseen (by simp [Config.shown, pc])
        (afterSwitch_shows after (by simpa only [pc, Pc.Treats] using treats) holds
          (fun answering => kept.ready.answering (by simpa [Config.phase, pc] using answering)) shows
          (fun answering =>
            shows answering ▸ kept.known holds (subject_answering (.inr (.inl pc)) answering)))
  | stop pc =>
      simp only [Config.Shows, pc] at shows
      exact unseen (by simp [Config.shown, pc])
        ⟨holds.setStatus _ _, shows, by simpa only [pc, Pc.Treats] using treats⟩
  | @kill k p r ret m c' pc finished after =>
      simp only [Config.Shows, pc] at shows
      exact unseen (by simp [Config.shown, pc])
        (afterSwitch_shows after (by simpa only [pc, Pc.Treats] using treats)
          (holds.finishStop kept.wf finished)
          (fun answering => kept.ready.answering (by simpa [Config.phase, pc] using answering)) shows
          (fun answering =>
            shows answering ▸ kept.known holds (subject_answering (.inr (.inr ⟨_, pc⟩)) answering)))
  | @unlink p ret m pc removed =>
      simp only [Config.Shows, pc] at shows
      have command : c.request.command = .cancel := by simpa only [pc, Pc.Treats] using treats
      have subject : c.pc.subject = some p := by simp [pc, Pc.subject]
      have known := kept.known holds subject
      obtain ⟨member, same⟩ := kept.subject subject
      obtain ⟨rfl, left⟩ := holds.removeEntry kept.wf removed member same
      refine unseen (by simp [Config.shown, pc]) ⟨left, ?_, trivial⟩
      show Serves cat c.request (cancelReply c.request true) _
      rw [← shows]
      exact .cancelled command known
  | reset pc =>
      exact unseen (by simp [Config.shown, pc]) ⟨holds.setStatus _ _, trivial, trivial⟩
  | saved pc | halted pc | write pc =>
      exact unseen (by simp [Config.shown, pc]) ⟨holds, trivial, trivial⟩
  | running pc =>
      exact unseen (by simp [Config.shown, pc]) ⟨holds, fun answering => (by cases answering), trivial⟩
  | respond pc =>
      simp only [Config.Shows, pc] at shows
      have single := Component.Trace.single (C := catalogue) (Catalogue.Step.served shows)
      exact ⟨held, by simpa only [Config.shown, pc] using single, trivial, held, holds, rfl⟩

/-- Every step of the process keeps the controller a catalogue. -/
theorem step_shows {a : Action} (kept : c.Kept) (treats : c.pc.Treats c.request.command)
    (holds : c.mem.Holds held) (shows : c.Shows held cat) (h : c.step max a = some c') :
    c.Moves a c' cat := by
  cases a with
  | control o => exact turn_shows kept treats holds shows (Config.control_turn h)
  | request r response =>
      obtain ⟨idle, rfl⟩ := Config.step_request h
      simp only [Config.Shows, idle] at shows
      refine unseen rfl ⟨holds, ?_⟩
      cases command : r.command with
      | none | other n =>
          simp only [Config.Shows, Command.dispatch, Pc.Treats, and_true]
          rw [shows]
          exact .unhandled (by rw [command]; exact id)
      | _ => exact ⟨by simpa only [Config.Shows, Command.dispatch, command] using shows,
          by simp [Pc.Treats, Command.dispatch, Task.Treats]⟩
  | thread tid a =>
      rcases Config.step_thread h with rfl | ⟨t, m, -, stepped, rfl⟩
      · exact crash_moves rfl
      · have move := Mem.threadStep_move stepped
        have held' : m.Holds held := by
          refine holds.congr move.frame.1 fun p _ => ?_
          obtain ⟨id, url⟩ := move.idUrl p
          rw [Entry.item, id, url, Entry.item]
        exact unseen rfl ⟨held', shows, treats⟩
  | signal fopen =>
      rcases Config.step_signal h with ⟨rfl, -⟩ | rfl | ⟨items, -, rfl⟩
      · exact unseen rfl ⟨holds, trivial, trivial⟩
      · exact crash_moves rfl
      · exact unseen rfl ⟨holds, trivial, trivial⟩

theorem controller_simulates :
    (controller L max).Simulates Config.shown catalogue (fun _ _ => True) Config.Exhibits := by
  rintro c a c' cat ⟨kept, treats, held, holds, shows⟩ - step
  obtain ⟨cat', trace, treats', shows'⟩ := step_shows kept treats holds shows step
  exact ⟨cat', trace, kept.step step, treats', shows'⟩

/-! ### Loading -/

/-- The entries of the index file that were not loaded yet. -/
def Pc.unloaded : Pc → List Entry
  | .load entries => entries
  | .loading entries => entries
  | _ => []

omit [LawfulListApi L] in
theorem afterSwitch_unloaded {d d' : Config L} {k : Task} {p : EntryPtr} {ret : Bool}
    (h : d.afterSwitch k p ret = some d') : d'.pc.unloaded = [] := by
  cases k with
  | restart =>
      obtain ⟨items, -, rfl⟩ := Option.map_eq_some_iff.mp h
      rfl
  | _ => cases h; rfl

omit [LawfulListApi L] in
/-- A step loads the first of the entries that are left, or none. -/
theorem loaded_or_unloaded {a : Action} (h : c.step max a = some c') :
    loadedItems (c.shown a c') ++ c'.pc.unloaded.map Entry.item <+: c.pc.unloaded.map Entry.item := by
  cases a with
  | control o =>
      have turn := Config.control_turn h
      cases turn with
      | loading pc => simp [Config.shown, pc, Pc.unloaded, loadedItems]
      | push pc => simp [Config.shown, pc, Pc.unloaded, loadedItems]
      | leave pc _ _ after | assign pc after | missing pc _ after | kill pc _ after =>
          simp [Config.shown, pc, afterSwitch_unloaded after, loadedItems]
      | crash pc =>
          have nothing : loadedItems (c.shown (.control o) c.crash) = [] := by
            simp only [Config.shown]
            split
            · rfl
            · rfl
            · rfl
          rw [nothing]
          exact List.nil_prefix
      | noQueue pc | loaded pc | noEntry pc | added pc | refused pc | visited pc | ready pc
      | waiting pc | skip pc | free pc | full pc | start pc | mark pc | unlisted pc | list pc
      | listed pc | report pc | notFound pc | toStop pc | toAssign pc | stop pc | unlink pc
      | saved pc | running pc | halted pc | reset pc | write pc | respond pc =>
          simp [Config.shown, pc, Pc.unloaded, loadedItems, Config.send]
  | request r response =>
      obtain ⟨-, rfl⟩ := Config.step_request h
      cases r.command <;> simp [Config.shown, loadedItems, Command.dispatch, Pc.unloaded]
  | thread tid a =>
      rcases Config.step_thread h with rfl | ⟨t, m, -, -, rfl⟩
      · exact List.nil_prefix
      · exact List.prefix_refl _
  | signal fopen =>
      rcases Config.step_signal h with ⟨rfl, -⟩ | rfl | ⟨items, -, rfl⟩ <;> exact List.nil_prefix

theorem loadedItems_append (es es' : List Shown) :
    loadedItems (es ++ es') = loadedItems es ++ loadedItems es' := List.filterMap_append

omit [LawfulListApi L] in
/-- What was loaded is a beginning of the index file. -/
theorem loaded_front {entries : List Entry} {n : Noted (Config L) Shown}
    (run : (exhibit L max).Reachable ⟨boot L entries, []⟩ n) :
    loadedItems n.events ++ n.state.pc.unloaded.map Entry.item <+: entries.map Entry.item := by
  refine Machine.Run.invariant (I := fun n => loadedItems n.events ++
    n.state.pc.unloaded.map Entry.item <+: entries.map Entry.item) run (List.prefix_refl _) ?_
  intro n a n' inv _ step
  obtain ⟨stepped, events⟩ := Machine.noted_step step
  rw [events, loadedItems_append, List.append_assoc]
  exact ((List.prefix_append_right_inj _).mpr (loaded_or_unloaded stepped)).trans inv

omit [LawfulListApi L] in
/-- The controller does not come back to the loading. -/
theorem step_loading {a : Action} (ready : c.Ready) (h : c.step max a = some c')
    (loading : c'.phase = .loading) : c.phase = .loading := by
  have silent : Silent c c' → c.phase = .loading := by
    intro silent
    rcases silent.phase with same | ended
    · exact same ▸ loading
    · rw [ended] at loading
      cases loading
  cases a with
  | control o =>
      cases control_progress ready h with
      | silent step => exact silent step
      | loaded loading => exact loading
      | report _ _ _ _ _ _ answering => rw [answering] at loading; cases loading
      | respond _ _ _ idle => rw [idle] at loading; cases loading
  | request r response =>
      rw [(request_answers h).2.1] at loading
      cases loading
  | thread tid a => exact silent (thread_silent h)
  | signal fopen =>
      rw [(signal_ending h).2.2] at loading
      cases loading

omit [LawfulListApi L] in
/-- A step shows nothing, or a download while the file is loaded, or a request afterwards. -/
theorem shown_phase {a : Action} (ready : c.Ready) (h : c.step max a = some c') :
    c.shown a c' = [] ∨ (∃ x, c.shown a c' = [.loaded x] ∧ c.phase = .loading) ∨
      ∃ request reply, c.shown a c' = [.served request reply] ∧ c'.phase ≠ .loading := by
  cases a with
  | control o =>
      simp only [Config.shown]
      split
      · next pc =>
        refine .inr (.inr ⟨_, _, rfl, fun loading => ?_⟩)
        have before := step_loading ready h loading
        rw [Config.phase, pc] at before
        cases before
      · next pc =>
        split
        · exact .inr (.inl ⟨_, rfl, by rw [Config.phase, pc]⟩)
        · exact .inl rfl
      · exact .inl rfl
  | request | thread | signal => exact .inl rfl

omit [LawfulListApi L] in
/-- No download is loaded once a request was served. -/
theorem loads_first {entries : List Entry} {n : Noted (Config L) Shown}
    (run : (exhibit L max).Reachable ⟨boot L entries, []⟩ n) : LoadsFirst n.events := by
  suffices n.state.Ready ∧ LoadsFirst n.events ∧
      (n.state.phase = .loading → n.events = (loadedItems n.events).map .loaded) from this.2.1
  refine Machine.Run.invariant (I := fun n => n.state.Ready ∧ LoadsFirst n.events ∧
    (n.state.phase = .loading → n.events = (loadedItems n.events).map .loaded)) run
    ⟨boot_ready entries, ⟨[], rfl⟩, fun _ => rfl⟩ ?_
  rintro n a n' ⟨ready, ⟨served, first⟩, loads⟩ _ step
  obtain ⟨stepped, events⟩ := Machine.noted_step step
  refine ⟨ready.step stepped, ?_⟩
  rw [events]
  rcases shown_phase ready stepped with none | ⟨x, loaded, loading⟩ | ⟨request, reply, last, phase⟩
  · rw [none, List.append_nil]
    exact ⟨⟨served, first⟩, fun loading => loads (step_loading ready stepped loading)⟩
  · have all : n.events ++ [.loaded x] = (loadedItems (n.events ++ [.loaded x])).map .loaded := by
      rw [loadedItems_append, List.map_append, ← loads loading]
      rfl
    rw [loaded]
    exact ⟨⟨[], all.trans (List.append_nil _).symm⟩, fun _ => all⟩
  · rw [last]
    refine ⟨⟨served ++ [(request, reply)], ?_⟩, fun loading => absurd loading phase⟩
    have same : loadedItems (n.events ++ [.served request reply]) = loadedItems n.events := by
      rw [loadedItems_append]
      exact List.append_nil _
    rw [same, List.map_append, ← List.append_assoc, ← first]
    rfl

/-! ### The results -/

theorem exhibit_trace {entries : List Entry} {n : Noted (Config L) Shown}
    (run : (exhibit L max).Reachable ⟨boot L entries, []⟩ n) :
    ∃ cat, catalogue.Trace [] n.events cat ∧
      (n.state.pc = .idle → n.state.mem.queueItems ≠ none → n.state.mem.catalogue = cat) := by
  have start : (boot L entries).Exhibits [] :=
    ⟨boot_kept entries, trivial, [], fun _ => rfl, rfl⟩
  obtain ⟨cat, trace, -, -, held, holds, shows⟩ := controller_simulates.trace start run
  refine ⟨cat, trace, ?_⟩
  intro idle traversed
  simp only [Config.Shows, idle] at shows
  exact (holds traversed).trans shows

/-- What the controller answers in a run is a trace of the catalogue, which begins with the
downloads loaded from the index file, before any request is served. When it waits for a request,
the queue holds what is in the catalogue, unless it cannot be traversed any more. -/
theorem controller_refines {entries : List Entry} {n : Noted (Config L) Shown}
    (run : (exhibit L max).Reachable ⟨boot L entries, []⟩ n) :
    ∃ cat, catalogue.Trace [] n.events cat ∧ loadedItems n.events <+: entries.map Entry.item ∧
      LoadsFirst n.events ∧
      (n.state.pc = .idle → n.state.mem.queueItems ≠ none → n.state.mem.catalogue = cat) := by
  obtain ⟨cat, trace, held⟩ := exhibit_trace run
  exact ⟨cat, trace, (List.prefix_append _ _).trans (loaded_front run), loads_first run, held⟩

end

/-- A `DOWNLOAD` that is accepted, the same once more, and a `CANCEL` of another name. -/
def threeRequests : List Action :=
  startUp ++ ask (download ['a'] ['x', '/', 'a']) 7 ++ ask (download ['a'] ['y']) 2 ++
    ask (order .cancel ['b']) 2

def threeReplies : List Shown :=
  [.served (download ['a'] ['x', '/', 'a']) (addedReply (download ['a'] ['x', '/', 'a'])),
    .served (download ['a'] ['y'])
      (reply (download ['a'] ['y']) .failure "File a already exists in the queue".toList),
    .served (order .cancel ['b']) (notFoundReply (order .cancel ['b']))]

theorem controller_refines_run : ∃ n : Noted (Config HeapList) Shown,
    (exhibit HeapList 1).Reachable ⟨boot HeapList [], []⟩ n ∧
      n.events = threeReplies ∧
      ∃ cat, catalogue.Trace [] n.events cat ∧ loadedItems n.events <+: [].map Entry.item ∧
        LoadsFirst n.events ∧
        (n.state.pc = .idle → n.state.mem.queueItems ≠ none → n.state.mem.catalogue = cat) := by
  obtain ⟨n, run, events⟩ := Machine.exists_run_of_exec (exhibit HeapList 1) (fun _ _ => True)
    ⟨boot HeapList [], []⟩ threeRequests (fun n => n.events = threeReplies) (by decide)
  exact ⟨n, run, events, controller_refines run⟩

/-- What a client can work out from a reply. -/
def replay (cat : List Item) : Shown → List Item
  | .loaded x => cat ++ [x]
  | .served r t =>
      if t.status = .success then
        match r.command with
        | .download => cat ++ [⟨r.id.name, r.url⟩]
        | .cancel => cat.eraseP fun x => decide (x.name = r.id.name)
        | _ => cat
      else cat

/-- Only the `SUCCESS` of a `DOWNLOAD` or of a `CANCEL` changes the catalogue. -/
theorem serves_replay {cat cat' : List Item} {r t : Transaction} (serves : Serves cat r t cat') :
    cat' = replay cat (.served r t) := by
  cases serves with
  | added command => simp [replay, addedReply, reply, command]
  | refused => simp [replay, reply]
  | listed command => simp [replay, reply, command]
  | empty => simp [replay, reply]
  | unknown => simp [replay, notFoundReply, reply]
  | @paused ret command => cases ret <;> simp [replay, pauseReply, reply, command]
  | restarted command => simp [replay, restartReply, reply, command]
  | cancelled command => simp [replay, cancelReply, reply, command]
  | unhandled command =>
      cases known : r.command with
      | none | other n => simp [replay, known]
      | _ => rw [known] at command; exact absurd trivial command

/-- The catalogue follows from the replies. -/
theorem trace_replay {cat cat' : List Item} {es : List Shown} (trace : catalogue.Trace cat es cat') :
    cat' = es.foldl replay cat := by
  induction trace with
  | nil => rfl
  | snoc _ shown ih =>
      rw [List.foldl_append, ← ih]
      cases shown with
      | loaded => rfl
      | served serves => exact serves_replay serves

/-- When the controller waits for a request, its queue is what the replies tell. -/
theorem replies_tell {L : Type → Type} [ListApi L] [LawfulListApi L] {max : Nat}
    {entries : List Entry} {n : Noted (Config L) Shown}
    (run : (exhibit L max).Reachable ⟨boot L entries, []⟩ n) (idle : n.state.pc = .idle)
    (traversed : n.state.mem.queueItems ≠ none) :
    n.state.mem.catalogue = n.events.foldl replay [] := by
  obtain ⟨cat, trace, held⟩ := exhibit_trace run
  rw [held idle traversed, trace_replay trace]

theorem replies_tell_run : ∃ n : Noted (Config HeapList) Shown,
    (exhibit HeapList 1).Reachable ⟨boot HeapList [], []⟩ n ∧
      n.state.mem.catalogue = [⟨['a'], ['x', '/', 'a']⟩] ∧
      n.state.mem.catalogue = n.events.foldl replay [] := by
  obtain ⟨n, run, idle, traversed, held⟩ := Machine.exists_run_of_exec (exhibit HeapList 1)
    (fun _ _ => True) ⟨boot HeapList [], []⟩ threeRequests
    (fun n => n.state.pc = .idle ∧ n.state.mem.queueItems ≠ none ∧
      n.state.mem.catalogue = [⟨['a'], ['x', '/', 'a']⟩]) (by decide)
  exact ⟨n, run, held, replies_tell run idle traversed⟩

end Dserve
