import Dserve.Names
import Dserve.Save

/-!
The catalogue over several lives of the daemon.

A termination signal makes the controller write its queue to the index file, and the controller of the
next start reads it. `catalogue_lasts` says that the catalogue goes on as if the daemon had never been
stopped, however often it is, and whatever the download threads do until the process ends; when it is
stopped while it waits for a request and has something in its queue, and the names are the last parts
of the URLs, which have no white space and fit their field.
-/

namespace Dserve

open Scan

inductive LifeAction where
  | act (a : Action)
  /-- the daemon is started again -/
  | start
deriving DecidableEq

/-- A step of the controller, or the start of the next one when it has ended. -/
def Config.live {L : Type → Type} [ListApi L] (max : Nat) (c : Config L) : LifeAction → Option (Config L)
  | .act a => c.step max a
  | .start =>
      if c.pc = .exited then
        (queueLoad c.index).map fun entries => { boot L entries with index := c.index }
      else none

/-- The controllers of one daemon, one after the other. -/
def lives (L : Type → Type) [ListApi L] (max : Nat) : Machine (Config L) LifeAction :=
  ⟨Config.live max⟩

def Shown.replies : Shown → Bool
  | .loaded _ => false
  | .served _ _ => true

/-- The requests that are served: nothing is seen of the ends and the starts. -/
def Config.serves {L : Type → Type} (c : Config L) : LifeAction → Config L → List Shown
  | .act a, c' => (c.shown a c').filter Shown.replies
  | .start, _ => []

/-- The line of the download can be read back. -/
def Item.Storable (x : Item) : Prop :=
  getNameFromUrl x.url = some x.name ∧ x.name ≠ [] ∧ (∀ c ∈ x.url, isSpace c = false) ∧
    x.url.length < MAX_URL_LEN

instance (x : Item) : Decidable x.Storable :=
  @instDecidableAnd _ _ inferInstance (@instDecidableAnd _ _ inferInstance
    (@instDecidableAnd _ _ (List.decidableBAll (fun c => isSpace c = false) x.url) inferInstance))

/-- A `DOWNLOAD` is given the name that its URL ends in, and a URL that fits; there is memory to load
the queue; and the signal comes when the controller waits, with something in its queue, and the index
file can be opened. -/
def Durable {L : Type → Type} [ListApi L] (c : Config L) : LifeAction → Prop
  | .act (.request r _) => r.command = .download → Item.Storable ⟨r.id.name, r.url⟩
  | .act (.control o) =>
      match c.pc with
      | .load _ => o.queueNew = true
      | .loading _ => o.entryNew = true
      | _ => True
  | .act (.thread _ _) => True
  | .act (.signal fopen) => c.pc = .idle ∧ fopen = true ∧ c.mem.queue ≠ []
  | .start => True

instance {L : Type → Type} [ListApi L] (c : Config L) (a : LifeAction) : Decidable (Durable c a) := by
  induction a using LifeAction.casesOn with
  | start => exact instDecidableTrue
  | act a =>
      induction a using Action.casesOn with
      | control o =>
          unfold Durable
          generalize c.pc = pc
          induction pc using Pc.casesOn <;> infer_instance
      | _ =>
          unfold Durable
          infer_instance

/-! ### What is known of the entries -/

/-- The entries of the queue, and those that are still to be loaded, can be written. -/
structure View.Fitting (v : View) : Prop where
  queue : ∀ p ∈ v.mem.queue, (v.mem.entry p).Fitting
  unloaded : ∀ e ∈ v.pc.unloaded, e.Fitting

section

variable {dangles : Prop} {max : Nat} {v w : View}

theorem step_fitting {a : Action} (sound : Sound v) (inv : v.Fitting)
    (step : View.Step dangles max v a w) : w.Fitting := by
  have old : ∀ p ∈ v.mem.queue, (w.mem.entry p).Fitting := fun p member =>
    step_fits step (sound.mem.queueBelow p member) (inv.queue p member)
  refine ⟨?_, fun e member => inv.unloaded e ((step_remaining step).subset member)⟩
  cases step_queue step with
  | same queue =>
      rw [queue]
      exact old
  | @appended e mem how =>
      have fits : e.Fitting := by
        rcases how with ⟨entries, loading⟩ | ⟨⟨_, target⟩, -⟩
        · exact inv.unloaded e (by rw [loading]; exact List.mem_cons_self)
        · exact target_fits target
      have entry : w.mem.entry v.mem.nextEntry = e := by
        rw [mem]
        exact Function.update_self _ _ _
      intro p member
      rw [mem, View.push_queue] at member
      rcases List.mem_append.mp member with member | member
      · exact old p member
      · rw [List.mem_singleton.mp member, entry]
        exact fits
  | @unlinked o p queue _ _ _ mem unlinked =>
      have sub : w.mem.queue.Sublist v.mem.queue := by
        rw [mem, Mem.queue_eq rfl]
        rcases unlinked with rfl | ⟨-, rfl, -⟩
        · exact List.eraseP_sublist
        · exact List.nil_sublist _
      exact fun p member => old p (sub.subset member)

end

/-! ### The index file -/

/-- The text is a line for each of the entries. -/
def Lines (es : List Entry) (text : CString) : Prop :=
  ∃ lines, text = lines.flatten ∧ List.Forall₂ (fun e line => indexLine e = some line) es lines

theorem lines_nil : Lines [] [] := ⟨[], rfl, .nil⟩

theorem Lines.snoc {es : List Entry} {e : Entry} {text line : CString} (lines : Lines es text)
    (written : indexLine e = some line) : Lines (es ++ [e]) (text ++ line) := by
  obtain ⟨ls, rfl, each⟩ := lines
  exact ⟨ls ++ [line], by simp, List.rel_append each (.cons written .nil)⟩

/-- Lines that can be read back are read back. -/
theorem Lines.load {es : List Entry} {text : CString} (lines : Lines es text)
    (fits : ∀ e ∈ es, e.Fitting) (nonempty : es ≠ []) (storable : ∀ e ∈ es, e.item.Storable) :
    queueLoad text = some es := by
  obtain ⟨ls, rfl, each⟩ := lines
  exact (queueLoad_lines each fits nonempty).mpr storable

section

variable {L : Type → Type} {m m' m'' : Mem L}

/-- The queue keeps its downloads. -/
structure Mem.Steady (m m' : Mem L) : Prop where
  queue : m'.downloadQueue = m.downloadQueue
  item : ∀ p, (m'.entry p).item = (m.entry p).item

theorem Mem.Steady.refl : m.Steady m := ⟨rfl, fun _ => rfl⟩

theorem steady_setStatus (m : Mem L) (p : EntryPtr) (s : EntryStatus) : m.Steady (m.setStatus p s) := by
  refine ⟨rfl, fun q => ?_⟩
  by_cases own : q = p
  · subst own
    simp [Mem.setStatus, Mem.setEntry, Entry.item]
  · simp [Mem.setStatus, Mem.setEntry, own]

end

/-! ### The save -/

section

variable {L : Type → Type} [ListApi L] {max : Nat} {o : Outcome} {c c' : Config L}
  {held cat : List Item} {ahead : List EntryPtr}

/-- What a step does while the controller saves its queue. -/
inductive SaveStep (c : Config L) (ahead : List EntryPtr) (c' : Config L) : Prop where
  | crashed : c'.pc = .crashed → SaveStep c ahead c'
  | on : c'.phase = .ending → c'.pc.traversal = some ahead → c'.index = c.index →
      c.mem.Steady c'.mem → SaveStep c ahead c'
  | wrote {p : EntryPtr} {rest : List EntryPtr} {line : CString} : ahead = p :: rest →
      c'.phase = .ending → c'.pc.traversal = some rest → indexLine (c.mem.entry p) = some line →
      c'.index = c.index ++ line → c'.mem = c.mem → SaveStep c ahead c'
  | ended : ahead = [] → c'.pc = .exited → c'.index = c.index → SaveStep c ahead c'

/-- When `download_pause` has returned, `queue_save` goes on with the same entry. -/
theorem afterSwitch_saves {d : Config L} {k : Task} {p : EntryPtr} {ret : Bool} {rest : List EntryPtr}
    (h : d.afterSwitch k p ret = some c') (task : k = .save rest) (ahead_eq : ahead = p :: rest)
    (index : d.index = c.index) (steady : c.mem.Steady d.mem) : SaveStep c ahead c' := by
  subst task ahead_eq
  cases h
  exact .on rfl rfl index steady

theorem Task.saves {k : Task} (ending : k.phase = .ending) : ∃ rest, k = .save rest := by
  cases k with
  | save rest => exact ⟨rest, rfl⟩
  | _ => cases ending

variable [LawfulListApi L]

theorem turn_saves (kept : c.Kept) (ending : c.phase = .ending) (saves : c.pc.traversal = some ahead)
    (turn : c.Turn max o c') : SaveStep c ahead c' := by
  cases turn with
  | crash => exact .crashed rfl
  | saved pc =>
      rw [pc] at saves
      cases saves
      exact .ended rfl rfl rfl
  | running pc | halted pc =>
      rw [pc] at saves
      cases saves
      exact .on rfl rfl rfl .refl
  | reset pc =>
      rw [pc] at saves
      cases saves
      exact .on rfl rfl rfl (steady_setStatus _ _ _)
  | write pc written =>
      rw [pc] at saves
      cases saves
      exact .wrote rfl rfl rfl written rfl rfl
  | assign pc after =>
      obtain ⟨rest, rfl⟩ := Task.saves (by simpa only [Config.phase, pc] using ending)
      rw [pc] at saves
      cases saves
      exact afterSwitch_saves after rfl rfl rfl (steady_setStatus _ _ _)
  | missing pc _ after =>
      obtain ⟨rest, rfl⟩ := Task.saves (by simpa only [Config.phase, pc] using ending)
      rw [pc] at saves
      cases saves
      exact afterSwitch_saves after rfl rfl rfl .refl
  | stop pc =>
      obtain ⟨rest, rfl⟩ := Task.saves (by simpa only [Config.phase, pc] using ending)
      rw [pc] at saves
      cases saves
      exact .on rfl rfl rfl (steady_setStatus _ _ _)
  | kill pc finished after =>
      obtain ⟨rest, rfl⟩ := Task.saves (by simpa only [Config.phase, pc] using ending)
      rw [pc] at saves
      cases saves
      obtain ⟨list, rfl, -, -⟩ := Mem.finishStop_spec kept.wf finished
      exact afterSwitch_saves after rfl rfl rfl ⟨rfl, fun _ => rfl⟩
  | listed pc | report pc => simp [Config.phase, pc] at ending
  | _ pc =>
      rw [pc] at saves
      cases saves

/-! ### One life after the other -/

/-- Where the catalogue is: in the queue and in what is left of the index file; in the queue; in the
index file and in what is left of the queue; or in the index file. -/
inductive Config.Recalls (c : Config L) (cat : List Item) : Prop where
  | loading {entries : List Entry} {held : List Item} : c.pc = .load entries ∨ c.pc = .loading entries →
      c.mem.Holds held → held ++ entries.map Entry.item = cat → Recalls c cat
  | serving {held : List Item} : c.pc.Loaded → c.phase ≠ .ending → c.mem.Holds held →
      c.Shows held cat → Recalls c cat
  | saving {ahead : List EntryPtr} {es : List Entry} : c.phase = .ending →
      c.pc.traversal = some ahead → (∀ p ∈ ahead, p ∈ c.mem.queue) → Lines es c.index →
      (∀ e ∈ es, e.Fitting) → es.map Entry.item ++ ahead.map (fun p => (c.mem.entry p).item) = cat →
      cat ≠ [] → Recalls c cat
  | exited {es : List Entry} : c.pc = .exited → Lines es c.index → (∀ e ∈ es, e.Fitting) →
      es.map Entry.item = cat → cat ≠ [] → Recalls c cat
  | crashed : c.pc = .crashed → Recalls c cat

/-- How a state of a controller is related to one of the catalogue. -/
structure Config.Remembers (c : Config L) (cat : List Item) : Prop where
  kept : c.Kept
  treats : c.pc.Treats c.request.command
  fitting : c.view.Fitting
  asked : c.request.command = .download → Item.Storable ⟨c.request.id.name, c.request.url⟩
  storable : ∀ x ∈ cat, x.Storable
  recalls : c.Recalls cat

/-- Outside of the save a step of the controller does not come to it. -/
theorem turn_serves (kept : c.Kept) (turn : c.Turn max o c') (serving : c.phase ≠ .ending) :
    c'.pc = .crashed ∨ c'.phase ≠ .ending := by
  have after {d : Config L} {k : Task} {p : EntryPtr} {ret : Bool}
      (h : d.afterSwitch k p ret = some c') (task : k.phase ≠ .ending) : c'.phase ≠ .ending := by
    cases k with
    | restart =>
        obtain ⟨items, -, rfl⟩ := Option.map_eq_some_iff.mp h
        simp only [Config.phase]
        split <;> simp
    | save rest => exact absurd rfl task
    | _ => cases h; simp [Config.phase]
  have lookup {k : Task} (pc : c.pc = .lookup k) : k.phase ≠ .ending := by
    intro ending
    obtain ⟨rest, rfl⟩ := Task.saves ending
    exact kept.sound.lookup rest pc
  cases turn with
  | crash => exact Or.inl rfl
  | leave pc _ _ h => exact Or.inr (after h (lookup pc))
  | toStop pc | toAssign pc => exact Or.inr (lookup pc)
  | assign pc h => exact Or.inr (after h (by simpa only [Config.phase, pc] using serving))
  | missing pc _ h => exact Or.inr (after h (by simpa only [Config.phase, pc] using serving))
  | kill pc _ h => exact Or.inr (after h (by simpa only [Config.phase, pc] using serving))
  | stop pc => exact Or.inr (by simpa only [Config.phase, pc] using serving)
  | loaded | added | waiting | skip | free | full | start | mark =>
      refine Or.inr ?_
      simp only [Config.phase]
      split <;> simp
  | saved pc | running pc | halted pc | reset pc | write pc =>
      exact absurd (by simp [Config.phase, pc]) serving
  | _ => exact Or.inr (by simp [Config.phase, Config.send])

omit [LawfulListApi L] in
/-- Where the catalogue is does not change with the statuses, the counters or the threads. -/
theorem Config.Recalls.steady {m : Mem L} (recalls : c.Recalls cat) (steady : c.mem.Steady m) :
    Config.Recalls { c with mem := m } cat := by
  have queue : m.queue = c.mem.queue := by simp only [Mem.queue, steady.queue]
  cases recalls with
  | loading pc holds all =>
      exact .loading pc (holds.congr steady.queue fun p _ => steady.item p) all
  | serving loaded serving holds shows =>
      exact .serving loaded serving (holds.congr steady.queue fun p _ => steady.item p) shows
  | saving ending traversal members lines fits all nonempty =>
      refine .saving ending traversal (fun p member => queue ▸ members p member) lines fits ?_ nonempty
      rw [← all, List.map_congr_left fun p _ => steady.item p]
  | exited pc lines fits all nonempty => exact .exited pc lines fits all nonempty
  | crashed pc => exact .crashed pc

omit [LawfulListApi L] in
/-- What the queue holds, whatever the controller does with it. -/
theorem Config.Recalls.shows (recalls : c.Recalls cat) :
    ∃ held cat, c.mem.Holds held ∧ c.Shows held cat := by
  cases recalls with
  | @loading entries held pc holds all =>
      refine ⟨held, held, holds, ?_⟩
      rcases pc with pc | pc <;> simp only [Config.Shows, pc]
  | serving _ _ holds shows => exact ⟨_, _, holds, shows⟩
  | @saving ahead _ ending traversal =>
      refine ⟨_, cat, fun _ => rfl, ?_⟩
      have task {k : Task} (pc : k.phase = .ending) : k.phase = .answering → c.mem.catalogue = cat :=
        fun answering => by rw [pc] at answering; cases answering
      cases pc : c.pc with
      | assign k p | stop k p | kill k p r =>
          simp only [Config.Shows, pc]
          exact task (by simpa only [Config.phase, pc] using ending)
      | saving rest | reset p rest | write p rest => simp only [Config.Shows, pc]
      | report rest => simp [Config.phase, pc] at ending
      | _ =>
          rw [pc] at traversal
          cases traversal
  | exited pc => exact ⟨_, cat, fun _ => rfl, by simp only [Config.Shows, pc]⟩
  | crashed pc => exact ⟨_, cat, fun _ => rfl, by simp only [Config.Shows, pc]⟩

/-- What is put into the catalogue is the download that was asked for. -/
theorem serves_storable {request reply : Transaction} {cat' : List Item}
    (serves : Serves cat request reply cat') (storable : ∀ x ∈ cat, x.Storable)
    (asked : request.command = .download → Item.Storable ⟨request.id.name, request.url⟩) :
    ∀ x ∈ cat', x.Storable := by
  cases serves with
  | added command =>
      intro x member
      rcases List.mem_append.mp member with old | new
      · exact storable x old
      · rw [List.mem_singleton.mp new]
        exact asked command
  | cancelled => exact fun x member => storable x (List.eraseP_sublist.subset member)
  | _ => exact storable

omit [ListApi L] [LawfulListApi L] in
/-- When the index file was loaded, only replies are shown. -/
theorem serves_shown {a : Action} (loaded : c.pc.Loaded) :
    c.serves (.act a) c' = c.shown a c' ∧
      (c.shown a c' = [] ∨ c.phase = .answering ∧ c.shown a c' = [.served c.request c.response]) := by
  have cases : c.shown a c' = [] ∨
      c.phase = .answering ∧ c.shown a c' = [.served c.request c.response] := by
    cases a with
    | control o =>
        simp only [Config.shown]
        split
        · next pc => exact Or.inr ⟨by simp [Config.phase, pc], rfl⟩
        · next e entries pc => exact absurd pc (loaded _).2
        · exact Or.inl rfl
    | _ => exact Or.inl rfl
  refine ⟨?_, cases⟩
  show (c.shown a c').filter Shown.replies = c.shown a c'
  rcases cases with none | ⟨-, one⟩
  · rw [none]
    rfl
  · rw [one]
    rfl

/-- What is shown while the index file is loaded. -/
theorem load_recalls {entries : List Entry} (inv : c.Remembers cat)
    (pc : c.pc = .load entries ∨ c.pc = .loading entries) (holds : c.mem.Holds held)
    (all : held ++ entries.map Entry.item = cat) (durable : Durable c (.act (.control o)))
    (turn : c.Turn max o c') (moves : c.Moves (.control o) c' held) :
    c.serves (.act (.control o)) c' = [] ∧ c'.Recalls cat := by
  obtain ⟨cat', trace, -, held', holds', shows'⟩ := moves
  have other {pc' : Pc} (here : c.pc = pc')
      (not : ∀ entries, pc' ≠ .load entries ∧ pc' ≠ .loading entries) : False := by
    rcases pc with pc | pc
    · exact (not entries).1 (here.symm.trans pc)
    · exact (not entries).2 (here.symm.trans pc)
  show (c.shown (.control o) c').filter Shown.replies = [] ∧ c'.Recalls cat
  cases turn with
  | crash =>
      refine ⟨?_, .crashed rfl⟩
      rcases pc with pc | pc
      · simp [Config.shown, pc]
      · cases entries <;> simp [Config.shown, pc, Config.crash]
  | noQueue here none =>
      have new : o.queueNew = true := by simpa [Durable, here] using durable
      rw [new] at none
      unfold Mem.queueInit at none
      split at none
      · next there => simp [there] at none
      · cases none
  | loading here =>
      rcases pc with pc | pc <;> rw [here] at pc <;> cases pc
      have none : c.shown (.control o)
          { c with mem := c.mem.queueInit o.queueNew, pc := .loading entries } = [] := by
        simp [Config.shown, here]
      rw [none, Component.trace_nil] at trace
      subst trace
      have same : held' = cat' := shows'
      exact ⟨by rw [none]; rfl, .loading (Or.inr rfl) holds' (by rw [same, all])⟩
  | @loaded items here =>
      rcases pc with pc | pc <;> rw [here] at pc <;> cases pc
      have none : c.shown (.control o) { c with pc := .visit items } = [] := by
        simp [Config.shown, here]
      rw [none, Component.trace_nil] at trace
      subst trace
      rw [List.map_nil, List.append_nil] at all
      subst all
      refine ⟨by rw [none]; rfl, .serving (by simp [Pc.Loaded]) ?_ holds' shows'⟩
      simp only [Config.phase]
      split <;> simp
  | noEntry here failed =>
      have new : o.entryNew = true := by simpa [Durable, here] using durable
      rw [new] at failed
      cases failed
  | @push e entries m here pushed =>
      rcases pc with pc | pc <;> rw [here] at pc <;> cases pc
      have one : c.shown (.control o) { c with mem := m, pc := .loading entries } = [.loaded e.item] := by
        simp [Config.shown, here]
      rw [one, Component.trace_single] at trace
      cases trace
      have same : held' = held ++ [e.item] := shows'
      exact ⟨by rw [one]; rfl, .loading (Or.inr rfl) holds' (by rw [same, ← all]; simp)⟩
  | _ here => exact (other here (by simp)).elim

omit [LawfulListApi L] in
theorem alive_of_step {a : Action} (h : c.step max a = some c') : c.pc ≠ .exited ∧ c.pc ≠ .crashed := by
  cases a with
  | request r response =>
      obtain ⟨idle, -⟩ := Config.step_request h
      simp [idle]
  | control o =>
      constructor
      · intro pc
        simp [Config.step, Config.control, pc] at h
      · intro pc
        simp [Config.step, Config.control, pc] at h
  | thread tid a =>
      simp only [Config.step] at h
      split at h
      · next alive => exact alive
      · cases h
  | signal fopen =>
      simp only [Config.step] at h
      split at h
      · next alive => exact alive.2
      · cases h

/-- A step of the controller keeps the catalogue, which shows the reply that was sent. -/
theorem control_recalls (inv : c.Remembers cat) (durable : Durable c (.act (.control o)))
    (h : c.step max (.control o) = some c') :
    ∃ cat', catalogue.Trace cat (c.serves (.act (.control o)) c') cat' ∧
      (∀ x ∈ cat', x.Storable) ∧ c'.Recalls cat' := by
  have turn := Config.control_turn h
  obtain ⟨running, alive⟩ := alive_of_step h
  obtain ⟨wf, view⟩ := step_view inv.kept.wf h
  cases inv.recalls with
  | @loading entries held pc holds all =>
      have shows : c.Shows held held := by
        rcases pc with pc | pc <;> simp only [Config.Shows, pc]
      obtain ⟨none, recalls⟩ := load_recalls inv pc holds all durable turn
        (turn_shows inv.kept inv.treats holds shows turn)
      exact ⟨cat, none ▸ .nil, inv.storable, recalls⟩
  | serving loaded serving holds shows =>
      obtain ⟨cat', trace, -, held', holds', shows'⟩ := turn_shows inv.kept inv.treats holds shows turn
      obtain ⟨same, cases⟩ : c.serves (.act (.control o)) c' = _ ∧ _ := serves_shown loaded
      refine ⟨cat', same ▸ trace, ?_, ?_⟩
      · rcases cases with none | ⟨-, one⟩
        · rw [none, Component.trace_nil] at trace
          exact trace ▸ inv.storable
        · rw [one, Component.trace_single] at trace
          obtain ⟨⟩ | serves := trace
          exact serves_storable serves inv.storable inv.asked
      · rcases turn_serves inv.kept turn serving with crashed | serving'
        · exact .crashed crashed
        · exact .serving (step_loaded view loaded) serving' holds' shows'
  | @saving ahead es ending traversal members lines fits all nonempty =>
      have loaded : c.pc.Loaded := by
        intro entries
        constructor
        · intro pc
          simp [Config.phase, pc] at ending
        · intro pc
          simp [Config.phase, pc] at ending
      obtain ⟨same, none | ⟨answering, -⟩⟩ : c.serves (.act (.control o)) c' = _ ∧ _ :=
        serves_shown loaded
      · refine ⟨cat, by rw [same, none]; exact .nil, inv.storable, ?_⟩
        cases turn_saves inv.kept ending traversal turn with
        | crashed pc => exact .crashed pc
        | on ending' traversal' index steady =>
            have queue : c'.mem.queue = c.mem.queue := by simp only [Mem.queue, steady.queue]
            refine .saving ending' traversal' (fun p member => queue ▸ members p member)
              (index ▸ lines) fits ?_ nonempty
            rw [← all, List.map_congr_left fun p _ => steady.item p]
        | @wrote p rest line first ending' traversal' written index mem =>
            subst first
            have member := members p List.mem_cons_self
            have fitting := inv.fitting.queue p (by simpa using member)
            refine .saving ending' traversal' (fun q mem' => ?_) (index ▸ lines.snoc written) ?_ ?_ nonempty
            · rw [mem]
              exact members q (List.mem_cons_of_mem _ mem')
            · intro e mem'
              rcases List.mem_append.mp mem' with old | new
              · exact fits e old
              · rw [List.mem_singleton.mp new]
                exact fitting
            · rw [mem, ← all]
              simp
        | ended done pc index =>
            subst done
            refine .exited pc (index ▸ lines) fits ?_ nonempty
            simpa using all
      · rw [ending] at answering
        cases answering
  | exited pc => exact absurd pc running
  | crashed pc => exact absurd pc alive

omit [LawfulListApi L] in
/-- When the controller waits for a request, the queue holds the catalogue. -/
theorem Config.Recalls.idle (recalls : c.Recalls cat) (idle : c.pc = .idle) : c.mem.Holds cat := by
  cases recalls with
  | loading pc => rcases pc with pc | pc <;> rw [idle] at pc <;> cases pc
  | serving _ _ holds shows =>
      simp only [Config.Shows, idle] at shows
      exact shows ▸ holds
  | saving ending => simp [Config.phase, idle] at ending
  | exited pc | crashed pc =>
      rw [idle] at pc
      cases pc

omit [LawfulListApi L] in
/-- When it has ended, the index file does. -/
theorem Config.Recalls.ended (recalls : c.Recalls cat) (exited : c.pc = .exited) :
    ∃ es, Lines es c.index ∧ (∀ e ∈ es, e.Fitting) ∧ es.map Entry.item = cat ∧ es ≠ [] := by
  cases recalls with
  | loading pc => rcases pc with pc | pc <;> rw [exited] at pc <;> cases pc
  | serving _ serving => exact absurd (by simp [Config.phase, exited]) serving
  | saving _ traversal =>
      rw [exited] at traversal
      cases traversal
  | crashed pc =>
      rw [exited] at pc
      cases pc
  | @exited es pc lines fits all nonempty =>
      refine ⟨es, lines, fits, all, ?_⟩
      rintro rfl
      exact nonempty (by simpa using all.symm)

/-- The index file can be read, and holds the catalogue. -/
theorem Config.Remembers.load (inv : c.Remembers cat) (exited : c.pc = .exited) :
    ∃ es, queueLoad c.index = some es ∧ (∀ e ∈ es, e.Fitting) ∧ es.map Entry.item = cat := by
  obtain ⟨es, lines, fits, all, nonempty⟩ := inv.recalls.ended exited
  refine ⟨es, lines.load fits nonempty fun e member => ?_, fits, all⟩
  exact inv.storable _ (all ▸ List.mem_map_of_mem member)

/-- A request that is read. -/
theorem request_recalls {r response : Transaction} (inv : c.Remembers cat)
    (h : c.step max (.request r response) = some c') : c'.Recalls cat := by
  obtain ⟨idle, rfl⟩ := Config.step_request h
  obtain ⟨-, view⟩ := step_view inv.kept.wf h
  cases inv.recalls with
  | loading pc => rcases pc with pc | pc <;> rw [idle] at pc <;> cases pc
  | @serving held loaded serving holds shows =>
      obtain ⟨cat', trace, -, held', holds', shows'⟩ := step_shows inv.kept inv.treats holds shows h
      have same : cat' = cat := Component.trace_nil.mp trace
      subst same
      refine .serving (step_loaded view loaded) ?_ holds' shows'
      cases r.command <;> simp [Config.phase, Command.dispatch]
  | saving ending => simp [Config.phase, idle] at ending
  | exited pc => rw [idle] at pc; cases pc
  | crashed pc => rw [idle] at pc; cases pc

/-- A signal begins the save of the whole catalogue. -/
theorem signal_recalls {fopen : Bool} (inv : c.Remembers cat)
    (durable : Durable c (.act (.signal fopen))) (h : c.step max (.signal fopen) = some c') :
    c'.Recalls cat := by
  obtain ⟨idle, opened, nonempty⟩ := durable
  rcases Config.step_signal h with ⟨-, none | failed⟩ | rfl | ⟨items, found, rfl⟩
  · exact absurd (by simp [Mem.queue, Mem.contents, none]) nonempty
  · rw [opened] at failed
    cases failed
  · exact .crashed rfl
  · have queue := Mem.queueItems_eq found
    have traversed : c.mem.queueItems ≠ none := by simp [found]
    have all : c.mem.catalogue = cat := inv.recalls.idle idle traversed
    subst queue
    refine .saving rfl rfl (fun p member => member) lines_nil (fun e member => ?_) ?_ ?_
    · cases member
    · exact all
    · rw [← all]
      simpa [Mem.catalogue] using nonempty

/-- The next controller finds the catalogue in the index file. -/
theorem start_remembers (inv : c.Remembers cat) (h : (lives L max).step c .start = some c') :
    c'.Remembers cat := by
  simp only [lives, Config.live] at h
  split at h
  · next exited =>
    obtain ⟨es, loaded, rfl⟩ := Option.map_eq_some_iff.mp h
    obtain ⟨es', loads, fits, all⟩ := inv.load exited
    cases loads.symm.trans loaded
    have start := boot_kept (L := L) es
    refine ⟨⟨start.wf, start.sound, start.ready⟩, trivial, ⟨fun p member => ?_, fits⟩,
      fun download => ?_, inv.storable, .loading (Or.inl rfl) (fun _ => rfl) all⟩
    · cases member
    · cases download
  · cases h

theorem lives_simulate :
    (lives L max).Simulates Config.serves catalogue Durable Config.Remembers := by
  rintro c a c' cat inv durable step
  cases a with
  | start => exact ⟨cat, .nil, start_remembers inv step⟩
  | act a =>
      have step : c.step max a = some c' := step
      obtain ⟨wf, view⟩ := step_view inv.kept.wf step
      have kept := inv.kept.step step
      have fitting := step_fitting inv.kept.sound inv.fitting view
      obtain ⟨held, cat₀, holds, shows⟩ := inv.recalls.shows
      obtain ⟨-, -, treats, -⟩ := step_shows inv.kept inv.treats holds shows step
      cases a with
      | control o =>
          obtain ⟨cat', trace, storable, recalls⟩ := control_recalls inv durable step
          have request := (Config.control_turn step).request
          exact ⟨cat', trace, kept, treats, fitting, request ▸ inv.asked, storable, recalls⟩
      | request r response =>
          have recalls := request_recalls inv step
          obtain ⟨-, rfl⟩ := Config.step_request step
          exact ⟨cat, .nil, kept, treats, fitting, durable, inv.storable, recalls⟩
      | thread tid a =>
          refine ⟨cat, .nil, kept, treats, fitting, ?_, inv.storable, ?_⟩
          · rcases Config.step_thread step with rfl | ⟨t, m, -, -, rfl⟩ <;> exact inv.asked
          · rcases Config.step_thread step with rfl | ⟨t, m, -, stepped, rfl⟩
            · exact .crashed rfl
            · have move := Mem.threadStep_move stepped
              refine inv.recalls.steady ⟨move.frame.1, fun p => ?_⟩
              obtain ⟨id, url⟩ := move.idUrl p
              rw [Entry.item, id, url, Entry.item]
      | signal fopen =>
          refine ⟨cat, .nil, kept, treats, fitting, ?_, inv.storable, signal_recalls inv durable step⟩
          rcases Config.step_signal step with ⟨rfl, -⟩ | rfl | ⟨items, -, rfl⟩ <;> exact inv.asked

/-! ### The result -/

/-- The catalogue outlives the controller: the requests that are served before and after each start
are one trace of it, which begins with nothing. When a controller waits for a request, its queue holds
what is in the catalogue, unless it cannot be traversed any more; when it has ended, the index file
does. -/
theorem catalogue_lasts {n : Noted (Config L) Shown}
    (run : ((lives L max).noted Config.serves).Run (fun n => Durable n.state) ⟨boot L [], []⟩ n) :
    ∃ cat, catalogue.Trace [] n.events cat ∧
      (n.state.pc = .idle → n.state.mem.queueItems ≠ none → n.state.mem.catalogue = cat) ∧
      (n.state.pc = .exited →
        ∃ es, queueLoad n.state.index = some es ∧ es.map Entry.item = cat) := by
  have start : (boot L []).Remembers [] := by
    refine ⟨boot_kept [], trivial, ⟨fun p member => ?_, fun e member => ?_⟩, fun download => ?_,
      fun x member => ?_, .loading (Or.inl rfl) (fun _ => rfl) rfl⟩
    · cases member
    · cases member
    · cases download
    · cases member
  obtain ⟨cat, trace, inv⟩ := lives_simulate.trace start run
  refine ⟨cat, trace, fun idle traversed => inv.recalls.idle idle traversed, fun exited => ?_⟩
  obtain ⟨es, loads, -, all⟩ := inv.load exited
  exact ⟨es, loads, all⟩

end

/-- A download is added, and the daemon is stopped. -/
def firstLife : List LifeAction :=
  (startUp ++ ask (download ['a'] ['x', '/', 'a']) 7).map .act ++
    .act (.signal true) :: List.replicate 6 (.act (.control {}))

/-- The daemon is started again, and finds the download. -/
theorem catalogue_lasts_run : ∃ n : Noted (Config HeapList) Shown,
    ((lives HeapList 1).noted Config.serves).Run (fun n => Durable n.state) ⟨boot HeapList [], []⟩ n ∧
      (∃ es, n.state.pc = .load es ∧ es.map Entry.item = [⟨['a'], ['x', '/', 'a']⟩]) ∧
      ∃ cat, catalogue.Trace [] n.events cat ∧
        (n.state.pc = .idle → n.state.mem.queueItems ≠ none → n.state.mem.catalogue = cat) ∧
        (n.state.pc = .exited →
          ∃ es, queueLoad n.state.index = some es ∧ es.map Entry.item = cat) := by
  obtain ⟨n, run, exited, events⟩ := Machine.exists_run_of_exec ((lives HeapList 1).noted Config.serves)
    (fun n => Durable n.state) ⟨boot HeapList [], []⟩ firstLife
    (fun n => n.state.pc = .exited ∧ n.events =
      [.served (download ['a'] ['x', '/', 'a']) (addedReply (download ['a'] ['x', '/', 'a']))])
    (by decide)
  obtain ⟨cat, trace, -, file⟩ := catalogue_lasts run
  obtain ⟨es, loads, items⟩ := file exited
  have step : ((lives HeapList 1).noted Config.serves).step n .start =
      some ⟨{ boot HeapList es with index := n.state.index }, n.events⟩ := by
    simp [Machine.noted, lives, Config.live, exited, loads, Config.serves]
  have admitted : Durable n.state .start := trivial
  have again := run.tail admitted step
  refine ⟨_, again, ⟨es, rfl, ?_⟩, catalogue_lasts again⟩
  rw [items, trace_replay trace, events]
  decide

end Dserve
