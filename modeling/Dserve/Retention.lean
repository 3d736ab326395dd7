import Dserve.Sound

/-!
What becomes of an entry.

An entry whose `DOWNLOAD` succeeded should stay in the queue, at its place, and be
seen by each traversal of a `STATUS` or of a save, until it is cancelled, and never be
seen again after that. On the lists of `list.c` the first half holds in the runs that
never take the first node out of the queue (`kept_until_cancelled`): `list_remove_item`
frees the root and the queue is lost with it (`lost_with_first`).
-/

namespace Dserve

/-- What a traversal of a `STATUS` or a save has still ahead. -/
def Pc.traversal : Pc → Option (List EntryPtr)
  | .report rest => some rest
  | .saving rest => some rest
  | .assign (.save rest) p => some (p :: rest)
  | .stop (.save rest) p => some (p :: rest)
  | .kill (.save rest) p _ => some (p :: rest)
  | .reset p rest => some (p :: rest)
  | .write p rest => some (p :: rest)
  | _ => none

/-- A traversal has dealt with the entry or has it ahead. -/
def View.Sees (v : View) (p : EntryPtr) : Prop :=
  ∃ ahead, v.pc.traversal = some ahead ∧ p ∈ v.reported ++ ahead

/-- The step in which a `CANCEL` for the id takes it out of the queue. -/
def CancelsId (id : CString) (v : View) : Action → Prop
  | .control _ =>
      match v.pc with
      | .unlink _ => v.request.id.name = id
      | _ => False
  | _ => False

instance (id : CString) (v : View) (a : Action) : Decidable (CancelsId id v a) := by
  unfold CancelsId
  induction a using Action.casesOn with
  | control o =>
      generalize v.pc = pc
      induction pc using Pc.casesOn <;> infer_instance
  | _ => infer_instance

/-- The entry that is taken out is not the first of the queue. -/
def KeepsFirst (v : View) : Action → Prop
  | .control _ =>
      match v.pc with
      | .unlink _ => ∀ q ∈ v.mem.queue.head?, v.mem.name q ≠ v.request.id.name
      | _ => True
  | _ => True

instance (v : View) (a : Action) : Decidable (KeepsFirst v a) := by
  unfold KeepsFirst
  induction a using Action.casesOn with
  | control o =>
      generalize v.pc = pc
      induction pc using Pc.casesOn <;> infer_instance
  | _ => infer_instance

section

variable {dangles : Prop} {max : Nat} {v w : View}

/-! ### One step -/

/-- A traversal goes on, or begins with the whole queue. -/
theorem step_traversal {a : Action} {ahead : List EntryPtr} (sound : Sound v)
    (step : View.Step dangles max v a w) (h : w.pc.traversal = some ahead) :
    (∃ before, v.pc.traversal = some before ∧ v.reported ++ before = w.reported ++ ahead) ∨
      (w.reported = [] ∧ ahead = v.mem.queue) := by
  have after_traversal : ∀ {queue : List EntryPtr} {p : EntryPtr} {k : Task} {pc : Pc},
      View.After queue p k pc → pc.traversal = some ahead →
      ∃ rest, k = .save rest ∧ ahead = p :: rest := by
    intro queue p k pc after h
    cases after <;> cases h
    exact ⟨_, rfl, rfl⟩
  cases step with
  | control move =>
      cases move with
      | goto next =>
          cases next with
          | leave pc _ _ after =>
              obtain ⟨rest, rfl, -⟩ := after_traversal after h
              exact absurd pc (sound.lookup rest)
          | missing pc _ after =>
              obtain ⟨rest, rfl, rfl⟩ := after_traversal after h
              exact Or.inl ⟨_, by rw [pc]; rfl, rfl⟩
          | running pc | halted pc =>
              cases h
              exact Or.inl ⟨_, by rw [pc]; rfl, rfl⟩
          | @stop k p pc | @assign k p pc =>
              cases k with
              | save rest => exact absurd pc (sound.lookup rest)
              | _ => cases h
          | _ => cases h
      | statusBegin =>
          cases h
          exact Or.inr ⟨rfl, rfl⟩
      | report pc | write pc =>
          cases h
          refine Or.inl ⟨_, by rw [pc]; rfl, ?_⟩
          rw [List.append_assoc]
          rfl
      | assign pc after =>
          obtain ⟨rest, rfl, rfl⟩ := after_traversal after h
          exact Or.inl ⟨_, by rw [pc]; rfl, rfl⟩
      | @stop k p r pc =>
          cases k <;> cases h
          exact Or.inl ⟨_, by rw [pc]; rfl, rfl⟩
      | kill pc _ after =>
          obtain ⟨rest, rfl, rfl⟩ := after_traversal after h
          exact Or.inl ⟨_, by rw [pc]; rfl, rfl⟩
      | reset pc =>
          cases h
          exact Or.inl ⟨_, by rw [pc]; rfl, rfl⟩
      | _ => cases h
  | thread => exact Or.inl ⟨ahead, h, rfl⟩
  | threadCrash => cases h
  | @request r =>
      have h : r.command.dispatch.traversal = some ahead := h
      cases command : r.command <;> rw [command] at h <;> cases h
  | save =>
      cases h
      exact Or.inr ⟨rfl, rfl⟩
  | terminate _ _ ended => rcases ended with rfl | rfl <;> cases h

/-- Ids and URLs are not written after the entry was made. -/
theorem step_idUrl {a : Action} {p : EntryPtr} (step : View.Step dangles max v a w)
    (old : p < v.mem.nextEntry) :
    (w.mem.entry p).id = (v.mem.entry p).id ∧ (w.mem.entry p).url = (v.mem.entry p).url := by
  have status : ∀ (q : EntryPtr) (s : EntryStatus),
      ((v.mem.setStatus q s).entry p).id = (v.mem.entry p).id ∧
        ((v.mem.setStatus q s).entry p).url = (v.mem.entry p).url := by
    intro q s
    by_cases h : p = q
    · subst h
      simp [Mem.setStatus, Mem.setEntry]
    · simp [Mem.setStatus, Mem.setEntry, h]
  cases step with
  | control move =>
      cases move with
      | push | added => rw [View.push_entry old]; exact ⟨rfl, rfl⟩
      | mark | assign | stop | reset => exact status _ _
      | _ => exact ⟨rfl, rfl⟩
  | thread _ _ _ stepped => exact (Mem.threadStep_move stepped).idUrl p
  | _ => exact ⟨rfl, rfl⟩

/-- What a step does to the queue: nothing, or it appends a new entry, or a `CANCEL`
takes one out. -/
inductive QueueStep (dangles : Prop) (v : View) (a : Action) (w : View) : Prop where
  | same : w.mem.queue = v.mem.queue → w.mem.nextEntry = v.mem.nextEntry → QueueStep dangles v a w
  | appended {e : Entry} : w.mem = View.push v.mem e → (∃ entries, v.pc = .loading (e :: entries)) ∨
      ((∃ o, entrySetTarget o entryNew v.request = some e) ∧
        ∀ q ∈ v.mem.queue, v.mem.name q ≠ v.request.id.name) → QueueStep dangles v a w
  | unlinked {o : Outcome} {p : EntryPtr} {queue : List EntryPtr} : a = .control o → v.pc = .unlink p →
      w.pc = .respond → w.mem = { v.mem with downloadQueue := some queue } →
      queue = (v.mem.queue.eraseP fun q => decide (v.mem.name q = v.request.id.name)) ∨
        dangles ∧ queue = [] ∧ (∃ q ∈ v.mem.queue.head?, v.mem.name q = v.request.id.name) →
      QueueStep dangles v a w

theorem step_queue {a : Action} (step : View.Step dangles max v a w) : QueueStep dangles v a w := by
  cases step with
  | control move =>
      cases move with
      | push h => exact .appended rfl (Or.inl ⟨_, h⟩)
      | added _ target fresh => exact .appended rfl (Or.inr ⟨⟨_, target⟩, fresh⟩)
      | unlink h queue => exact .unlinked rfl h rfl rfl queue
      | _ => exact .same rfl rfl
  | thread _ _ _ stepped =>
      have move := Mem.threadStep_move stepped
      exact .same move.queue move.frame.2.2.2.2.2
  | _ => exact .same rfl rfl

/-- After the load of the index file. -/
def Pc.Loaded (pc : Pc) : Prop := ∀ entries, pc ≠ .load entries ∧ pc ≠ .loading entries

theorem step_loaded {a : Action} (step : View.Step dangles max v a w) (loaded : v.pc.Loaded) :
    w.pc.Loaded := by
  intro entries
  cases step with
  | control move =>
      cases move with
      | goto next =>
          cases next with
          | load h => exact absurd h (loaded _).1
          | leave _ _ _ after | missing _ _ after => cases after <;> simp
          | _ => simp
      | push h => exact absurd h (loaded _).2
      | assign _ after | kill _ _ after => cases after <;> simp
      | _ => simp
  | thread => exact loaded entries
  | @request r => cases r.command <;> simp [Command.dispatch]
  | terminate _ _ ended => rcases ended with rfl | rfl <;> simp
  | threadCrash | save => simp

/-! ### Entries that were added -/

/-- The entry `p` keeps the id and the URL of `e`, and no other entry of the queue has
its id. -/
structure Owned (p : EntryPtr) (e : Entry) (v : View) : Prop where
  loaded : v.pc.Loaded
  old : p < v.mem.nextEntry
  idUrl : (v.mem.entry p).id = e.id ∧ (v.mem.entry p).url = e.url
  alone : ∀ q ∈ v.mem.queue, v.mem.name q = e.id.name → q = p

theorem step_owned {a : Action} {p : EntryPtr} {e : Entry} (sound : Sound v) (inv : Owned p e v)
    (present : p ∈ v.mem.queue) (step : View.Step dangles max v a w) : Owned p e w := by
  have nextEntry : v.mem.nextEntry ≤ w.mem.nextEntry := by
    cases step_queue step with
    | same _ next => exact Nat.le_of_eq next.symm
    | appended mem => rw [mem]; exact Nat.le_succ _
    | unlinked _ _ _ mem => rw [mem]
  have idUrl := step_idUrl step inv.old
  have alone : ∀ q ∈ v.mem.queue, w.mem.name q = e.id.name → q = p := by
    intro q hq same
    have name : w.mem.name q = v.mem.name q :=
      congrArg TrxId.name (step_idUrl step (sound.mem.queueBelow q hq)).1
    exact inv.alone q hq (name ▸ same)
  refine ⟨step_loaded step inv.loaded, Nat.lt_of_lt_of_le inv.old nextEntry,
    ⟨idUrl.1.trans inv.idUrl.1, idUrl.2.trans inv.idUrl.2⟩, ?_⟩
  intro q hq same
  cases step_queue step with
  | same queue => exact alone q (queue ▸ hq) same
  | @appended e' mem how =>
      rw [mem, View.push_queue] at hq
      rcases List.mem_append.mp hq with hq | hq
      · exact alone q hq same
      · -- the new entry has the id of a request that no entry had
        rw [List.mem_singleton.mp hq] at same
        rcases how with ⟨entries, h⟩ | ⟨⟨_, target⟩, fresh⟩
        · exact absurd h (inv.loaded _).2
        · have own : v.mem.name p = e.id.name := congrArg TrxId.name inv.idUrl.1
          have new : w.mem.name v.mem.nextEntry = e'.id.name := by
            rw [mem]
            simp [View.push, Mem.name]
          have name := congrArg TrxId.name (entrySetTarget_spec target).1
          exact absurd (own.trans (same.symm.trans (new.trans name))) (fresh p present)
  | unlinked _ _ _ mem unlinked =>
      rw [mem, Mem.queue_eq rfl] at hq
      rcases unlinked with rfl | ⟨-, rfl, -⟩
      · exact alone q (List.eraseP_sublist.subset hq) same
      · cases hq

/-- The entry `p` is in the queue, at its place among the entries of `queue`, and each
traversal sees it. -/
structure Kept (p : EntryPtr) (e : Entry) (queue : List EntryPtr) (v : View) : Prop where
  owned : Owned p e v
  mem : p ∈ v.mem.queue
  order : ∃ kept added, v.mem.queue = kept ++ added ∧ kept.Sublist queue ∧ ∀ q ∈ added, q ∉ queue
  below : ∀ q ∈ queue, q < v.mem.nextEntry
  seen : v.pc.traversal ≠ none → v.Sees p

theorem step_kept {a : Action} {p : EntryPtr} {e : Entry} {queue : List EntryPtr} (sound : Sound v)
    (inv : Kept p e queue v) (keepsFirst : KeepsFirst v a) (other : ¬ CancelsId e.id.name v a)
    (step : View.Step dangles max v a w) : Kept p e queue w := by
  obtain ⟨kept, added, parts, keptSub, new⟩ := inv.order
  have seen : w.pc.traversal ≠ none → w.Sees p := by
    intro traverses
    obtain ⟨ahead, h⟩ := Option.ne_none_iff_exists'.mp traverses
    refine ⟨ahead, h, ?_⟩
    rcases step_traversal sound step h with ⟨before, hb, same⟩ | ⟨reported, rfl⟩
    · obtain ⟨before', hb', mem⟩ := inv.seen (by rw [hb]; simp)
      rw [hb] at hb'
      cases hb'
      rw [← same]
      exact mem
    · exact List.mem_append_right _ inv.mem
  have owned := step_owned sound inv.owned inv.mem step
  cases step_queue step with
  | same queue next =>
      exact ⟨owned, queue ▸ inv.mem, ⟨kept, added, queue.trans parts, keptSub, new⟩,
        next ▸ inv.below, seen⟩
  | appended mem =>
      refine ⟨owned, ?_, ⟨kept, added ++ [v.mem.nextEntry], ?_, keptSub, ?_⟩, ?_, seen⟩
      · rw [mem, View.push_queue]
        exact List.mem_append_left _ inv.mem
      · rw [mem, View.push_queue, parts, List.append_assoc]
      · intro q hq old
        rcases List.mem_append.mp hq with hq | hq
        · exact new q hq old
        · exact absurd (List.mem_singleton.mp hq) (Nat.ne_of_lt (inv.below q old))
      · intro q old
        rw [mem]
        exact Nat.lt_succ_of_lt (inv.below q old)
  | unlinked control h _ mem unlinked =>
      subst control
      simp only [KeepsFirst, h] at keepsFirst
      simp only [CancelsId, h] at other
      have erased := unlinked.resolve_right fun ⟨_, _, q, first, same⟩ => keepsFirst q first same
      have own : v.mem.name p = e.id.name := congrArg TrxId.name inv.owned.idUrl.1
      have left : w.mem.queue = v.mem.queue.eraseP fun q => decide (v.mem.name q = v.request.id.name) := by
        rw [mem, Mem.queue_eq rfl, erased]
      have sub : w.mem.queue.Sublist (kept ++ added) := by
        rw [left, ← parts]
        exact List.eraseP_sublist
      obtain ⟨kept', added', parts', sub', added''⟩ := List.sublist_append_iff.mp sub
      refine ⟨owned, ?_, ⟨kept', added', parts', sub'.trans keptSub, ?_⟩, ?_, seen⟩
      · rw [left, List.mem_eraseP_of_neg]
        · exact inv.mem
        · rw [own]
          simpa using fun same => other same.symm
      · intro q hq
        exact new q (added''.subset hq)
      · rw [mem]
        exact inv.below

/-- The entry `p` is out of the queue, and no traversal sees it. -/
structure Gone (p : EntryPtr) (v : View) : Prop where
  old : p < v.mem.nextEntry
  gone : p ∉ v.mem.queue
  unseen : ¬ v.Sees p

theorem step_gone {a : Action} {p : EntryPtr} (sound : Sound v) (inv : Gone p v)
    (step : View.Step dangles max v a w) : Gone p w := by
  have unseen : ¬ w.Sees p := by
    rintro ⟨ahead, h, mem⟩
    rcases step_traversal sound step h with ⟨before, hb, same⟩ | ⟨reported, rfl⟩
    · exact inv.unseen ⟨before, hb, same ▸ mem⟩
    · rw [reported] at mem
      exact inv.gone mem
  cases step_queue step with
  | same queue next => exact ⟨next ▸ inv.old, queue ▸ inv.gone, unseen⟩
  | appended mem =>
      refine ⟨by rw [mem]; exact Nat.lt_succ_of_lt inv.old, ?_, unseen⟩
      rw [mem, View.push_queue]
      intro hp
      rcases List.mem_append.mp hp with hp | hp
      · exact inv.gone hp
      · exact Nat.ne_of_lt inv.old (List.mem_singleton.mp hp)
  | unlinked _ _ _ mem unlinked =>
      refine ⟨by rw [mem]; exact inv.old, ?_, unseen⟩
      rw [mem, Mem.queue_eq rfl]
      rcases unlinked with rfl | ⟨-, rfl, -⟩
      · exact fun hp => inv.gone (List.eraseP_sublist.subset hp)
      · exact List.not_mem_nil

/-- The entry is in the queue, or it is out for good. -/
def InOrGone (p : EntryPtr) (e : Entry) (v : View) : Prop :=
  (Owned p e v ∧ p ∈ v.mem.queue) ∨ Gone p v

theorem step_inOrGone {a : Action} {p : EntryPtr} {e : Entry} (sound : Sound v)
    (inv : InOrGone p e v) (step : View.Step dangles max v a w) : InOrGone p e w := by
  rcases inv with ⟨owned, present⟩ | gone
  · have owned' := step_owned sound owned present step
    by_cases present' : p ∈ w.mem.queue
    · exact Or.inl ⟨owned', present'⟩
    · refine Or.inr ⟨owned'.old, present', ?_⟩
      cases step_queue step with
      | same queue => exact absurd (queue ▸ present) present'
      | appended mem =>
          rw [mem, View.push_queue] at present'
          exact absurd (List.mem_append_left _ present) present'
      | unlinked _ _ pc =>
          rintro ⟨ahead, h, -⟩
          rw [pc] at h
          cases h
  · exact Or.inr (step_gone sound gone step)

/-- Once its id is cancelled, the entry is out for good. -/
theorem cancels_gone {a : Action} {p : EntryPtr} {e : Entry} (sound : Sound v)
    (inv : InOrGone p e v) (cancels : CancelsId e.id.name v a) (step : View.Step dangles max v a w)
    (alive : w.pc ≠ .crashed) : Gone p w := by
  rcases inv with ⟨owned, present⟩ | gone
  · unfold CancelsId at cancels
    split at cancels
    · split at cancels
      · next q h =>
        cases step with
        | control move =>
            cases move with
            | crash => exact absurd rfl alive
            | @unlink q' queue h' unlinked =>
                -- the entry that is found has the id, so that it is this one
                have named := sound.named q' (by rw [h']; rfl)
                have name : v.mem.name q' = v.request.id.name := by
                  simpa using List.find?_some named
                obtain rfl := owned.alone q' (List.mem_of_find?_eq_some named) (name.trans cancels)
                refine ⟨owned.old, ?_, ?_⟩
                · rw [Mem.queue_eq rfl]
                  exact (unlinked_gone sound h' unlinked).2
                · rintro ⟨ahead, traversal, -⟩
                  cases traversal
            | goto next =>
                cases next with
                | noLoad h' => rcases h' with h' | h' <;> rw [h] at h' <;> cases h'
                | _ => simp_all
            | _ => simp_all
      · exact cancels.elim
    · exact cancels.elim
  · exact step_gone sound gone step

/-! ### Runs -/

/-- A `DOWNLOAD` that is refused is answered `FAILURE`. -/
theorem add_refused {c c' : Config HeapList} {o : Outcome} (wf : c.mem.Wf) (pc : c.pc = .add)
    (h : c.control max o = some c') (refused : c'.pc = .respond) : c'.response.status = .failure := by
  obtain ⟨-, h⟩ := Config.control_add pc h
  rcases orCrash_cases h with rfl | h
  · cases refused
  · obtain ⟨⟨m, response, added⟩, appended, h⟩ := Option.bind_eq_some_iff.mp h
    obtain ⟨list, -, ⟨rfl, failure, -⟩ | ⟨rfl, -⟩⟩ := Mem.queueAppend_spec wf appended
    · cases h
      exact failure
    · obtain ⟨-, view⟩ := visitAll_view h
      have pc' := congrArg View.pc view
      rw [view_pc, refused] at pc'
      cases pc'

/-- A `DOWNLOAD` that succeeds appends an entry for its id and URL. -/
theorem add_success {c c' : Config HeapList} {o : Outcome} (wf : c.mem.Wf) (pc : c.pc = .add)
    (h : c.control max o = some c') (success : c'.response.status = .success)
    (alive : c'.pc ≠ .crashed) : ∃ e o, entrySetTarget o entryNew c.request = some e ∧
      (∀ q ∈ c.view.mem.queue, c.view.mem.name q ≠ c.request.id.name) ∧
      c'.view = { c.view with
        mem := View.push c.view.mem e, pc := .visit (c.view.mem.queue ++ [c.view.mem.nextEntry]) } := by
  obtain ⟨-, move⟩ := add_move wf pc h
  have pc : c.view.pc = .add := pc
  have alive : c'.view.pc ≠ .crashed := alive
  generalize view : c'.view = w at move alive
  cases move with
  | crash => exact absurd rfl alive
  | goto next =>
      cases next with
      | refused =>
          have failure := add_refused wf ‹c.pc = .add› h (congrArg View.pc view)
          rw [success] at failure
          cases failure
      | noLoad h => rcases h with h | h <;> rw [pc] at h <;> cases h
      | _ => simp_all
  | added _ target fresh => exact ⟨_, _, target, fresh, rfl⟩
  | _ => simp_all

/-- The life of the entry `p` after the `DOWNLOAD` that added it. -/
structure Lifetime (max : Nat) (p : EntryPtr) (c : Config HeapList) : Prop where
  /-- Until its id is cancelled it stays, and each traversal sees it. -/
  stays : ∀ d, (controller HeapList max).Run
      (fun d a => KeepsFirst d.view a ∧ ¬ CancelsId (c.mem.name p) d.view a) c d →
    p ∈ d.mem.queue ∧
      ((d.mem.entry p).id = (c.mem.entry p).id ∧ (d.mem.entry p).url = (c.mem.entry p).url) ∧
      (∃ kept added, d.mem.queue = kept ++ added ∧ kept.Sublist c.mem.queue ∧
        ∀ q ∈ added, q ∉ c.mem.queue) ∧
      (d.pc.traversal ≠ none → d.view.Sees p)
  /-- Once it is cancelled it is out of the queue, and no traversal sees it. -/
  leaves : ∀ d d' a e, (controller HeapList max).Reachable c d →
    CancelsId (c.mem.name p) d.view a → d.step max a = some d' → d'.pc ≠ .crashed →
    (controller HeapList max).Reachable d' e → p ∉ e.mem.queue ∧ ¬ e.view.Sees p

/-- An entry whose `DOWNLOAD` is answered `SUCCESS` has the id and the URL of the
request. In the runs that never take the first node out of the queue it stays there, at
its place, and is seen by each traversal until its id is cancelled; after that it is
never in the queue nor seen again. -/
theorem kept_until_cancelled {entries : List Entry} {c c' : Config HeapList} {o : Outcome}
    (before : (controller HeapList max).Reachable (boot HeapList entries) c) (add : c.pc = .add)
    (step : c.step max (.control o) = some c') (success : c'.response.status = .success)
    (alive : c'.pc ≠ .crashed) :
    ((c'.mem.entry c.mem.nextEntry).id = c.request.id ∧
      (c'.mem.entry c.mem.nextEntry).url = c.request.url) ∧ Lifetime max c.mem.nextEntry c' := by
  obtain ⟨wf, sound⟩ := reachable_invariant (boot_wf entries) (boot_sound entries)
    (fun v a w inv step => step_sound inv step) before
  obtain ⟨wf', view⟩ := step_view wf step
  have sound' := step_sound sound view
  obtain ⟨e, _, target, fresh, added⟩ := add_success wf add step success alive
  obtain ⟨id, url, -⟩ := entrySetTarget_spec target
  have entry : c'.mem.entry c.mem.nextEntry = e := by
    have mem := congrArg (fun v : View => v.mem.entry c.mem.nextEntry) added
    simpa [View.push] using mem
  have queue : c'.mem.queue = c.mem.queue ++ [c.mem.nextEntry] := by
    have mem := congrArg (fun v : View => v.mem.queue) added
    simpa using mem
  have owned : Owned c.mem.nextEntry e c'.view := by
    rw [added]
    refine ⟨by simp [Pc.Loaded], Nat.lt_succ_self _, ?_, ?_⟩
    · simp [View.push]
    · intro q hq same
      rw [View.push_queue] at hq
      rcases List.mem_append.mp hq with hq | hq
      · rw [View.push_name (sound.mem.queueBelow q hq), id] at same
        exact absurd same (fresh q hq)
      · simpa using hq
  have present : c.mem.nextEntry ∈ c'.view.mem.queue := by simp [queue]
  have name : c'.mem.name c.mem.nextEntry = e.id.name := by rw [Mem.name, entry]
  refine ⟨by rw [entry]; exact ⟨id, url⟩, ⟨?_, ?_⟩⟩
  · intro d run
    have start : Kept c.mem.nextEntry e c'.mem.queue c'.view := by
      refine ⟨owned, present, ⟨c'.mem.queue, [], by simp, List.Sublist.refl _, by simp⟩, ?_, ?_⟩
      · intro q hq
        exact sound'.mem.queueBelow q (by simpa using hq)
      · rw [added]
        exact fun traverses => absurd rfl traverses
    obtain ⟨-, -, kept⟩ := run_invariant
      (I := fun v => Sound v ∧ Kept c.mem.nextEntry e c'.mem.queue v) wf' ⟨sound', start⟩
      (fun _ _ _ inv ok _ view =>
        ⟨step_sound inv.1 view, step_kept inv.1 inv.2 ok.1 (name ▸ ok.2) view⟩) run
    rw [entry]
    refine ⟨by simpa using kept.mem, kept.owned.idUrl, ?_, kept.seen⟩
    simpa using kept.order
  · intro d d' a f run cancels step alive after
    obtain ⟨wfD, soundD, inOrGone⟩ := reachable_invariant
      (I := fun v => Sound v ∧ InOrGone c.mem.nextEntry e v) wf' ⟨sound', Or.inl ⟨owned, present⟩⟩
      (fun _ _ _ inv view => ⟨step_sound inv.1 view, step_inOrGone inv.1 inv.2 view⟩) run
    obtain ⟨wfD', viewD⟩ := step_view wfD step
    have gone := cancels_gone soundD inOrGone (name ▸ cancels) viewD alive
    obtain ⟨-, -, gone⟩ := reachable_invariant
      (I := fun v => Sound v ∧ Gone c.mem.nextEntry v) wfD' ⟨step_sound soundD viewD, gone⟩
      (fun _ _ _ inv view => ⟨step_sound inv.1 view, step_gone inv.1 inv.2 view⟩) after
    exact ⟨by simpa using gone.gone, gone.unseen⟩

/-- The `DOWNLOAD` of `b` while `a` is in the queue, and a later state in which `b` is
still there and a `STATUS` has dealt with it. -/
theorem kept_until_cancelled_run : ∃ c c' d : Config HeapList,
    (((c'.mem.entry c.mem.nextEntry).id = c.request.id ∧
      (c'.mem.entry c.mem.nextEntry).url = c.request.url) ∧ Lifetime 1 c.mem.nextEntry c') ∧
    (c.mem.nextEntry = 1 ∧ d.pc = .report []) ∧ 1 ∈ d.mem.queue ∧ d.view.Sees 1 := by
  obtain ⟨c, before, add, next, continues⟩ := Machine.exists_run_of_exec (controller HeapList 1)
    (fun _ _ => True) (boot HeapList [])
    (startUp ++ ask (download ['a'] ['x', '/', 'a']) 7 ++ ask (download ['b'] ['x', '/', 'b']) 0)
    (fun c => c.pc = .add ∧ c.mem.nextEntry = 1 ∧ (c.step 1 (.control {})).any (fun c' =>
      decide (c'.response.status = .success ∧ c'.pc ≠ .crashed) &&
      ((controller HeapList 1).exec
        (fun d a => KeepsFirst d.view a ∧ ¬ CancelsId (c'.mem.name c.mem.nextEntry) d.view a)
        (List.replicate 7 (.control {}) ++ ask (order .status []) 3) c').any
          fun d => decide (d.pc = .report [])) = true)
    (by decide)
  obtain ⟨c', step, continues⟩ := (Option.any_eq_true _ _).mp continues
  obtain ⟨added, continues⟩ := Bool.and_eq_true_iff.mp continues
  obtain ⟨success, alive⟩ := of_decide_eq_true added
  obtain ⟨d, run, reported⟩ := Machine.exists_run_of_exec (controller HeapList 1) _ c' _
    (fun d => d.pc = .report []) continues
  have kept := kept_until_cancelled before add step success alive
  obtain ⟨present, -, -, seen⟩ := kept.2.stays d run
  rw [next] at present seen
  exact ⟨c, c', d, kept, ⟨next, reported⟩, present, seen (by rw [reported]; simp [Pc.traversal])⟩

/-- `a` is cancelled and `b` goes with it. -/
theorem lost_with_first : ¬ ∀ (max : Nat) (entries : List Entry) (c c' d : Config HeapList) (o : Outcome),
    (controller HeapList max).Reachable (boot HeapList entries) c → c.pc = .add →
    c.step max (.control o) = some c' → c'.response.status = .success → c'.pc ≠ .crashed →
    (controller HeapList max).Run (fun d a => ¬ CancelsId (c'.mem.name c.mem.nextEntry) d.view a) c' d →
    c.mem.nextEntry ∈ d.mem.queue := by
  intro all
  obtain ⟨c, before, add, continues⟩ := Machine.exists_run_of_exec (controller HeapList 1)
    (fun _ _ => True) (boot HeapList [])
    (startUp ++ ask (download ['a'] ['x', '/', 'a']) 7 ++ ask (download ['b'] ['x', '/', 'b']) 0)
    (fun c => c.pc = .add ∧ (c.step 1 (.control {})).any (fun c' =>
      decide (c'.response.status = .success ∧ c'.pc ≠ .crashed) &&
      ((controller HeapList 1).exec
        (fun d a => ¬ CancelsId (c'.mem.name c.mem.nextEntry) d.view a)
        (List.replicate 7 (.control {}) ++ ask (order .cancel ['a']) 4) c').any
          fun d => decide (c.mem.nextEntry ∉ d.mem.queue)) = true)
    (by decide)
  obtain ⟨c', step, continues⟩ := (Option.any_eq_true _ _).mp continues
  obtain ⟨added, continues⟩ := Bool.and_eq_true_iff.mp continues
  obtain ⟨success, alive⟩ := of_decide_eq_true added
  obtain ⟨d, run, lost⟩ := Machine.exists_run_of_exec (controller HeapList 1) _ c' _
    (fun d => c.mem.nextEntry ∉ d.mem.queue) continues
  exact lost (all 1 [] c c' d {} before add step success alive run)

end

end Dserve
