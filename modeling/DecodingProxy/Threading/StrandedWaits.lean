import DecodingProxy.Threading.SignalEvent

/-!
# Waits that no signal and no cancellation completes

A wait should not stay open while a signal is stored or after the event was cancelled.
It does in two ways: `WaitAsync` on a cancelled event with no stored signal queues an
open wait, and a second cancellation stops at a wait that the first one left in the
queue, in front of the open ones.
-/

namespace DecodingProxy.Threading.Signals
open DecodingProxy.Runtime DecodingProxy.Runs

namespace AsyncAutoResetEvent

def Pending (e : AsyncAutoResetEvent) : Prop := ∃ t : TaskId, e.tasks[t]? = some .pending

structure NoStrandedWaiter (e : AsyncAutoResetEvent) : Prop where
  signals : 0 < e.signals → ¬ e.Pending
  canceled : e.isCanceled = true → ¬ e.Pending

/-- Some queued wait is in this state. -/
def queues (state : TaskState Unit) (e : AsyncAutoResetEvent) : Bool :=
  e.waits.any fun t => e.tasks[t]? = some state

/-- The queue holds cancelled waits in front of open ones, and no other wait is open. -/
structure Shape (e : AsyncAutoResetEvent) (cs ps : List TaskId) : Prop where
  waits : e.waits = cs ++ ps
  nodup : ps.Nodup
  canceled : ∀ t ∈ cs, e.tasks[t]? = some .canceled
  pending : ∀ t, e.tasks[t]? = some .pending ↔ t ∈ ps

namespace Shape

variable {e : AsyncAutoResetEvent} {cs ps : List TaskId}

theorem pending_iff (h : e.Shape cs ps) : e.Pending ↔ ps ≠ [] := by
  constructor
  · rintro ⟨t, ht⟩
    exact List.ne_nil_of_mem ((h.pending t).mp ht)
  · intro hps
    obtain ⟨t, ht⟩ := List.exists_mem_of_ne_nil ps hps
    exact ⟨t, (h.pending t).mpr ht⟩

theorem queues_pending (h : e.Shape cs ps) : e.queues .pending = true ↔ ps ≠ [] := by
  rw [← h.pending_iff]
  simp only [queues, List.any_eq_true, decide_eq_true_eq]
  constructor
  · rintro ⟨t, -, ht⟩
    exact ⟨t, ht⟩
  · rintro ⟨t, ht⟩
    exact ⟨t, by simp [h.waits, (h.pending t).mp ht], ht⟩

theorem queues_canceled (h : e.Shape cs ps) : e.queues .canceled = true ↔ cs ≠ [] := by
  simp only [queues, List.any_eq_true, decide_eq_true_eq, h.waits, List.mem_append]
  constructor
  · rintro ⟨t, ht | ht, hc⟩
    · exact List.ne_nil_of_mem ht
    · rw [(h.pending t).mpr ht] at hc
      cases hc
  · intro hcs
    obtain ⟨t, ht⟩ := List.exists_mem_of_ne_nil cs hcs
    exact ⟨t, .inl ht, h.canceled t ht⟩

end Shape

/-! ### What each call does to the queue -/

theorem transition_pending {e : AsyncAutoResetEvent} {t : TaskId} (state : TaskState Unit)
    (h : e.tasks[t]? = some .pending) :
    e.transition t state = ({ e with tasks := e.tasks.set t state }, .ok ()) := by
  simp [transition, h]

theorem transition_canceled {e : AsyncAutoResetEvent} {t : TaskId} (state : TaskState Unit)
    (h : e.tasks[t]? = some .canceled) :
    e.transition t state = (e, .error (.raised .invalidOperation)) := by
  simp [transition, h]

theorem setCanceledAll_pending {e : AsyncAutoResetEvent} {items : List TaskId}
    (hnodup : items.Nodup) (hpending : ∀ t ∈ items, e.tasks[t]? = some .pending) :
    e.setCanceledAll items =
      ({ e with tasks := items.foldl (fun ts t => ts.set t .canceled) e.tasks }, .ok ()) := by
  induction items generalizing e with
  | nil => rfl
  | cons t items ih =>
    obtain ⟨hnew, hnodup⟩ := List.nodup_cons.mp hnodup
    simp only [setCanceledAll, transition_pending .canceled (hpending t (by simp))]
    rw [ih hnodup]
    · rfl
    · intro u hu
      have hne : t ≠ u := fun h => hnew (h ▸ hu)
      simpa [List.getElem?_set_ne hne] using hpending u (by simp [hu])

theorem getElem?_foldl_set {ts : List (TaskState Unit)} {items : List TaskId} {u : TaskId}
    (hin : ∀ t ∈ items, t < ts.length) :
    (items.foldl (fun ts t => ts.set t .canceled) ts)[u]? =
      if u ∈ items then some .canceled else ts[u]? := by
  induction items generalizing ts with
  | nil => simp
  | cons t items ih =>
    rw [List.foldl_cons, ih (fun v hv => by simpa using hin v (by simp [hv]))]
    have ht := hin t (by simp)
    by_cases hu : u ∈ items
    · simp [hu]
    · by_cases hut : u = t
      · subst hut
        simp [hu, ht]
      · simp [hu, hut, List.getElem?_set_ne (Ne.symm hut)]

variable {e : AsyncAutoResetEvent} {cs ps : List TaskId}

theorem Shape.callback_open (h : e.Shape [] ps) (source : SourceId) :
    (e.callback source).1.Shape ps [] ∧ (e.callback source).2 = .ok () ∧
      (e.callback source).1.isCanceled = true ∧ (e.callback source).1.signals = e.signals := by
  obtain rfl : e.waits = ps := h.waits
  have hall := setCanceledAll_pending
    (e := { e with isCanceled := true, cachedCanceled := some source }) h.nodup
    (fun t ht => (h.pending t).mpr ht)
  have hin : ∀ t ∈ e.waits, t < e.tasks.length := fun t ht =>
    (List.getElem?_eq_some_iff.mp ((h.pending t).mpr ht)).1
  rw [callback, hall]
  refine ⟨⟨by simp, List.nodup_nil, ?_, ?_⟩, rfl, rfl, rfl⟩
  · intro t ht
    simp [getElem?_foldl_set hin, ht]
  · intro t
    by_cases ht : t ∈ e.waits
    · simp [getElem?_foldl_set hin, ht]
    · simp [getElem?_foldl_set hin, ht, h.pending t]

theorem Shape.callback_stale (h : e.Shape cs ps) (hcs : cs ≠ []) (source : SourceId) :
    e.callback source = ({ e with isCanceled := true, cachedCanceled := some source },
      .error (.raised .invalidOperation)) := by
  obtain ⟨c, cs, rfl⟩ := List.exists_cons_of_ne_nil hcs
  have hc : e.tasks[c]? = some .canceled := h.canceled c (by simp)
  have hw : e.waits = c :: (cs ++ ps) := h.waits
  have ht := transition_canceled (e := { e with isCanceled := true, cachedCanceled := some source })
    .canceled hc
  unfold callback
  simp only [hw] at ht ⊢
  simp only [setCanceledAll, ht]

theorem Shape.of_eq {e' : AsyncAutoResetEvent} (h : e.Shape cs ps) (hw : e'.waits = e.waits)
    (ht : e'.tasks = e.tasks) : e'.Shape cs ps :=
  ⟨hw.trans h.waits, h.nodup, by simpa only [ht] using h.canceled,
    by simpa only [ht] using h.pending⟩

theorem Shape.takeSignal_stored (h : e.Shape cs ps) (hs : 0 < e.signals) :
    e.takeSignal.1.Shape cs ps ∧ e.takeSignal.1.isCanceled = e.isCanceled := by
  rw [takeSignal, if_pos hs]
  exact ⟨h.of_eq rfl rfl, rfl⟩

theorem Shape.takeSignal_none (h : e.Shape cs ps) (hs : ¬ 0 < e.signals) :
    e.takeSignal.1.Shape cs (ps ++ [e.tasks.length]) ∧
      e.takeSignal.1.isCanceled = e.isCanceled ∧ e.takeSignal.1.signals = e.signals := by
  rw [takeSignal, if_neg hs]
  have hlt : ∀ t state, e.tasks[t]? = some state → t < e.tasks.length := fun t state ht =>
    (List.getElem?_eq_some_iff.mp ht).1
  refine ⟨⟨by simp [h.waits], ?_, ?_, ?_⟩, rfl, rfl⟩
  · rw [List.nodup_append]
    refine ⟨h.nodup, by simp, fun t ht u hu => ?_⟩
    rw [List.mem_singleton.mp hu]
    exact (hlt t _ ((h.pending t).mpr ht)).ne
  · intro t ht
    have hc := h.canceled t ht
    rw [← hc]
    exact List.getElem?_append_left (hlt t _ hc)
  · intro t
    rcases lt_trichotomy t e.tasks.length with ht | rfl | ht
    · simp [List.getElem?_append_left ht, h.pending t, ht.ne]
    · simp
    · have hnone : (e.tasks ++ [TaskState.pending])[t]? = none :=
        List.getElem?_eq_none (by simpa using Nat.succ_le_of_lt ht)
      have hnot : t ∉ ps := fun hp =>
        lt_asymm ht (hlt t _ ((h.pending t).mpr hp))
      simp [hnone, hnot, ht.ne']

theorem Shape.noStranded (h : e.Shape cs []) : e.NoStrandedWaiter :=
  ⟨fun _ hp => h.pending_iff.mp hp rfl, fun _ hp => h.pending_iff.mp hp rfl⟩

theorem Shape.noStranded_iff_of_canceled (h : e.Shape cs ps) (hc : e.isCanceled = true) :
    e.NoStrandedWaiter ↔ ps = [] := by
  constructor
  · intro hn
    by_contra hps
    exact hn.canceled hc (h.pending_iff.mpr hps)
  · rintro rfl
    exact h.noStranded

/-- `Set` completes the wait in front, loses its signal on a cancelled one, or counts. -/
theorem Shape.set (h : e.Shape cs ps) :
    ∃ cs' ps', e.set.Shape cs' ps' ∧ (e.NoStrandedWaiter → e.set.NoStrandedWaiter) := by
  unfold AsyncAutoResetEvent.set
  split_ifs with hc
  · refine ⟨cs, ps, h.of_eq rfl rfl, fun hn => ?_⟩
    obtain rfl := (h.noStranded_iff_of_canceled hc).mp hn
    have hshape : Shape { e with signals := int32 (e.signals + 1) } cs [] := h.of_eq rfl rfl
    exact hshape.noStranded
  cases cs with
  | cons c cs =>
    have hw : e.waits = c :: (cs ++ ps) := h.waits
    have ht := transition_canceled (e := { e with waits := cs ++ ps }) (.result ())
      (h.canceled c (by simp))
    simp only [hw, ht]
    have hshape : Shape { e with waits := cs ++ ps } cs ps :=
      ⟨rfl, h.nodup, fun t hin => h.canceled t (by simp [hin]), h.pending⟩
    refine ⟨cs, ps, hshape, fun hn => ⟨?_, fun hcancel => absurd hcancel hc⟩⟩
    intro hs hp
    exact hn.signals hs (h.pending_iff.mpr (hshape.pending_iff.mp hp))
  | nil =>
    cases ps with
    | nil =>
      have hw : e.waits = [] := h.waits
      simp only [hw]
      have hshape : Shape { e with signals := int32 (e.signals + 1) } [] [] :=
        h.of_eq rfl rfl
      rw [hw] at hshape
      exact ⟨[], [], hshape, fun _ => hshape.noStranded⟩
    | cons p ps =>
      have hw : e.waits = p :: ps := h.waits
      have hp := (h.pending p).mpr (by simp)
      have ht := transition_pending (e := { e with waits := ps }) (.result ()) hp
      simp only [hw, ht]
      obtain ⟨hnew, hnodup⟩ := List.nodup_cons.mp h.nodup
      have hshape : Shape { e with waits := ps, tasks := e.tasks.set p (.result ()) } [] ps := by
        refine ⟨rfl, hnodup, by simp, fun t => ?_⟩
        by_cases htp : t = p
        · subst htp
          simp [hnew, (List.getElem?_eq_some_iff.mp hp).1]
        · simpa [List.getElem?_set_ne (Ne.symm htp), htp] using h.pending t
      refine ⟨[], ps, hshape, fun hn => ⟨?_, fun hcancel => absurd hcancel hc⟩⟩
      intro hs _
      exact hn.signals hs (h.pending_iff.mpr (by simp))

theorem Shape.callbacks (h : e.Shape cs ps) (source : SourceId) {l : List SourceId}
    (hl : l ≠ []) :
    (l.foldl (fun e _ => (e.callback source).1) e).isCanceled = true ∧
      (cs = [] → (l.foldl (fun e _ => (e.callback source).1) e).Shape ps []) ∧
      (cs ≠ [] → (l.foldl (fun e _ => (e.callback source).1) e).Shape cs ps) := by
  induction l generalizing e cs ps with
  | nil => exact absurd rfl hl
  | cons x l ih =>
    rw [List.foldl_cons]
    by_cases hcs : cs = []
    · subst hcs
      obtain ⟨hshape, -, hcancel, -⟩ := h.callback_open source
      by_cases hnil : l = []
      · subst hnil
        exact ⟨hcancel, fun _ => hshape, fun hne => absurd rfl hne⟩
      · obtain ⟨hcancel', hempty, hstale⟩ := ih hshape hnil
        refine ⟨hcancel', fun _ => ?_, fun hne => absurd rfl hne⟩
        by_cases hps : ps = []
        · subst hps
          exact hempty rfl
        · exact hstale hps
    · have hshape : (e.callback source).1.Shape cs ps := by
        rw [h.callback_stale hcs]
        exact h.of_eq rfl rfl
      by_cases hnil : l = []
      · subst hnil
        refine ⟨?_, fun hempty => absurd hempty hcs, fun _ => hshape⟩
        rw [List.foldl_nil, h.callback_stale hcs]
      · obtain ⟨hcancel, -, hstale⟩ := ih hshape hnil
        exact ⟨hcancel, fun hempty => absurd hempty hcs, fun _ => hstale hcs⟩

end AsyncAutoResetEvent

namespace Session

/-- The call registers its token, and the token is cancelled already. -/
def registersCanceled (s : Session) (token : Option SourceId) : Bool :=
  s.event.cancellationToken = none && token.any fun source => source ∈ s.canceledSources

/-- The token is none, or the first one, or the one the event was given before. -/
def accepts (s : Session) (token : Option SourceId) : Bool :=
  token = none || s.event.cancellationToken = none || s.event.cancellationToken = token

/-- The call leaves an open wait behind: a wait on a cancelled event with no stored signal,
or a cancellation that meets cancelled and open waits in the queue. -/
def Strands (s : Session) : SessionCall → Prop
  | .waitAsync token =>
    if s.registersCanceled token then
      if s.event.queues .canceled then s.event.queues .pending else s.event.signals ≤ 0
    else s.accepts token ∧ s.event.isCanceled ∧ s.event.signals ≤ 0
  | .cancel source =>
    source ∉ s.canceledSources ∧ source ∈ s.registrations ∧ s.event.queues .canceled ∧
      s.event.queues .pending
  | .set | .reset => False

/-- In every state of the run, no wait is open while a signal is stored or the event is
cancelled. -/
def NeverStrands (calls : List SessionCall) : Prop :=
  ∀ s, Reached step {} calls s → s.event.NoStrandedWaiter

/-- What one call does: the queue keeps its shape, and a state without stranded waiter is
followed by another unless the call strands one. -/
structure Follows (s : Session) (a : SessionCall) : Prop where
  shape : ∃ cs ps, (s.call a).event.Shape cs ps
  noStranded : s.event.NoStrandedWaiter → ((s.call a).event.NoStrandedWaiter ↔ ¬ s.Strands a)

variable {s : Session} {cs ps : List TaskId}

theorem takeSignal_noStranded {e : AsyncAutoResetEvent} (h : e.Shape cs ps) :
    (∃ cs' ps', e.takeSignal.1.Shape cs' ps') ∧
      (e.NoStrandedWaiter → (e.takeSignal.1.NoStrandedWaiter ↔
        ¬ (e.isCanceled = true ∧ e.signals ≤ 0))) := by
  by_cases hs : 0 < e.signals
  · obtain ⟨hshape, -⟩ := h.takeSignal_stored hs
    refine ⟨⟨cs, ps, hshape⟩, fun hn => ?_⟩
    have hps : ps = [] := by
      by_contra hps
      exact hn.signals hs (h.pending_iff.mpr hps)
    subst hps
    exact iff_of_true hshape.noStranded (by omega)
  · obtain ⟨hshape, hcancel, hsignals⟩ := h.takeSignal_none hs
    refine ⟨⟨cs, _, hshape⟩, fun _ => ?_⟩
    have hpending : e.takeSignal.1.Pending := hshape.pending_iff.mpr (by simp)
    constructor
    · rintro hn ⟨hc, -⟩
      exact hn.canceled (hcancel.trans hc) hpending
    · intro hnot
      refine ⟨fun hpos => absurd (hsignals ▸ hpos) hs, fun hc => ?_⟩
      exact absurd ⟨hcancel.symm.trans hc, by omega⟩ hnot

theorem follows_of_register {token : Option SourceId} {s' : Session}
    (h : s'.event.Shape cs ps) (hr : s.register token = (s', .ok ()))
    (hsame : s'.event.isCanceled = s.event.isCanceled ∧ s'.event.signals = s.event.signals)
    (hpending : s'.event.Pending ↔ s.event.Pending)
    (hfresh : s.registersCanceled token = false) (hok : s.accepts token = true) :
    Follows s (.waitAsync token) := by
  have hcall : (s.call (.waitAsync token)).event = s'.event.takeSignal.1 := by
    simp only [call, waitAsync, hr]
  obtain ⟨hshape, hiff⟩ := takeSignal_noStranded h
  refine ⟨by rwa [hcall], fun hn => ?_⟩
  have hn' : s'.event.NoStrandedWaiter :=
    ⟨fun hs hp => hn.signals (hsame.2 ▸ hs) (hpending.mp hp),
      fun hc hp => hn.canceled (hsame.1 ▸ hc) (hpending.mp hp)⟩
  rw [hcall, hiff hn', hsame.1, hsame.2]
  simp [Strands, hfresh, hok]

theorem follows_registersCanceled {source : SourceId} (h : s.event.Shape cs ps)
    (htoken : s.event.cancellationToken = none) (hcanceled : source ∈ s.canceledSources) :
    Follows s (.waitAsync (some source)) := by
  let event : AsyncAutoResetEvent := { s.event with cancellationToken := some source }
  have hevent : event.Shape cs ps := h.of_eq rfl rfl
  have hregisters : s.registersCanceled (some source) = true := by
    simp [registersCanceled, htoken, hcanceled]
  have hregister : s.register (some source) =
      ({ s with event := (event.callback source).1 }, (event.callback source).2) := by
    simp [register, htoken, hcanceled, event]
  by_cases hcs : cs = []
  · subst hcs
    obtain ⟨hopen, hok, hcancel, hsignals⟩ := hevent.callback_open source
    have hcall : (s.call (.waitAsync (some source))).event =
        (event.callback source).1.takeSignal.1 := by
      simp only [call, waitAsync, hregister, hok]
    obtain ⟨hshape, hiff⟩ := takeSignal_noStranded hopen
    refine ⟨by rwa [hcall], fun _ => ?_⟩
    have hnone : s.event.queues .canceled ≠ true := fun hq => h.queues_canceled.mp hq rfl
    rw [hcall, hiff hopen.noStranded, hcancel, hsignals]
    simp [Strands, hregisters, hnone, event]
  · have hstale := hevent.callback_stale hcs source
    have hcall : (s.call (.waitAsync (some source))).event = (event.callback source).1 := by
      simp only [call, waitAsync, hregister, hstale]
    have hshape : (event.callback source).1.Shape cs ps := by
      rw [hstale]
      exact hevent.of_eq rfl rfl
    refine ⟨⟨cs, ps, by rwa [hcall]⟩, fun _ => ?_⟩
    rw [hcall, hshape.noStranded_iff_of_canceled (by rw [hstale])]
    simp [Strands, hregisters, h.queues_canceled.mpr hcs, h.queues_pending]

theorem follows_waitAsync (h : s.event.Shape cs ps) (token : Option SourceId) :
    Follows s (.waitAsync token) := by
  cases token with
  | none =>
    exact follows_of_register h rfl ⟨rfl, rfl⟩ Iff.rfl (by simp [registersCanceled])
      (by simp [accepts])
  | some source =>
    cases htoken : s.event.cancellationToken with
    | some registered =>
      by_cases hsource : registered = source
      · subst hsource
        have hregister : s.register (some registered) = (s, .ok ()) := by simp [register, htoken]
        refine follows_of_register h hregister ⟨rfl, rfl⟩ Iff.rfl ?_ ?_
        · simp [registersCanceled, htoken]
        · simp [accepts, htoken]
      · have hcall : s.call (.waitAsync (some source)) = s := by
          simp [call, waitAsync, register, htoken, hsource]
        refine ⟨⟨cs, ps, by rwa [hcall]⟩, fun hn => ?_⟩
        rw [hcall]
        apply iff_of_true hn
        simp [Strands, registersCanceled, accepts, htoken, hsource]
    | none =>
      by_cases hcanceled : source ∈ s.canceledSources
      · exact follows_registersCanceled h htoken hcanceled
      · let s' : Session := { s with
          event := { s.event with cancellationToken := some source }
          registrations := s.registrations ++ [source] }
        have hshape : s'.event.Shape cs ps := h.of_eq rfl rfl
        refine follows_of_register hshape ?_ ⟨rfl, rfl⟩ Iff.rfl ?_ ?_
        · simp [register, htoken, hcanceled, s']
        · simp [registersCanceled, hcanceled]
        · simp [accepts, htoken]

theorem follows_cancel (h : s.event.Shape cs ps) (source : SourceId) :
    Follows s (.cancel source) := by
  by_cases hdone : source ∈ s.canceledSources
  · have hcall : s.call (.cancel source) = s := by simp [call, cancel, hdone]
    refine ⟨⟨cs, ps, by rwa [hcall]⟩, fun hn => ?_⟩
    rw [hcall]
    exact iff_of_true hn (by simp [Strands, hdone])
  set l := s.registrations.filter (· = source) with hl
  have hcall : (s.call (.cancel source)).event =
      l.foldl (fun e _ => (e.callback source).1) s.event := by
    simp [call, cancel, hdone, hl]
  have hmem : source ∈ s.registrations ↔ l ≠ [] := by
    simp [hl, List.filter_eq_nil_iff]
  by_cases hnil : l = []
  · have hsame : (s.call (.cancel source)).event = s.event := by rw [hcall, hnil, List.foldl_nil]
    refine ⟨⟨cs, ps, by rwa [hsame]⟩, fun hn => ?_⟩
    rw [hsame]
    exact iff_of_true hn (by simp [Strands, hmem, hnil])
  obtain ⟨hcancel, hempty, hstale⟩ := h.callbacks source hnil
  rw [← hcall] at hcancel hempty hstale
  by_cases hcs : cs = []
  · have hshape := hempty hcs
    refine ⟨⟨ps, [], hshape⟩, fun _ => iff_of_true hshape.noStranded ?_⟩
    rintro ⟨-, -, hqueues, -⟩
    exact h.queues_canceled.mp hqueues hcs
  · have hshape := hstale hcs
    refine ⟨⟨cs, ps, hshape⟩, fun _ => ?_⟩
    rw [hshape.noStranded_iff_of_canceled hcancel]
    simp [Strands, hdone, hmem, hnil, h.queues_canceled, h.queues_pending, hcs]

theorem follows (h : s.event.Shape cs ps) (a : SessionCall) : Follows s a := by
  cases a with
  | waitAsync token => exact follows_waitAsync h token
  | set =>
    obtain ⟨cs', ps', hshape, hkeep⟩ := h.set
    exact ⟨⟨cs', ps', hshape⟩, fun hn => iff_of_true (hkeep hn) (by simp [Strands])⟩
  | cancel source => exact follows_cancel h source
  | reset =>
    refine ⟨⟨cs, ps, h.of_eq rfl rfl⟩, fun _ => iff_of_true ⟨?_, ?_⟩ (by simp [Strands])⟩
    · exact fun hs => absurd hs (Int.lt_irrefl 0)
    · exact fun hc => absurd hc Bool.false_ne_true

end Session

/-- A run strands no waiter just when none of its calls strands one. -/
theorem neverStrands_iff (calls : List SessionCall) :
    Session.NeverStrands calls ↔ Along Session.step (fun s a => ¬ s.Strands a) {} calls := by
  have hstart : AsyncAutoResetEvent.Shape {} [] [] := ⟨rfl, by simp, by simp, by simp⟩
  refine reached_iff_along (I := fun s : Session => ∃ cs ps, s.event.Shape cs ps)
    (fun s a _ _ => .inl ⟨_, rfl⟩) ?_ ?_ ⟨[], [], hstart⟩ hstart.noStranded
  · rintro s a t ⟨cs, ps, h⟩ - hs -
    cases hs
    exact (Session.follows h a).shape
  · rintro s a t ⟨cs, ps, h⟩ hn hs
    cases hs
    exact (Session.follows h a).noStranded hn

/-- A wait with the token of the event after the cancellation, the stored signal used up. -/
theorem not_neverStrands_wait_after_cancel :
    ¬ Session.NeverStrands
      [.waitAsync (some 0), .set, .cancel 0, .waitAsync (some 0)] := by
  intro h
  have hs := h _ (reached_of_run rfl)
  exact hs.canceled (by decide) ⟨1, by decide⟩

end DecodingProxy.Threading.Signals
