import DecodingProxy.Lib.Runs
import DecodingProxy.Tcp.ConnectionsToDomain

/-!
# The stalled chain as a queue with removal

One operation after the other: a connection is stalled, the oldest one is revived, or the
watchdog of any one times out. The entries come from the pool and go back to it. The chain is
the list of the connections that are stalled, in the order in which they were.
-/

namespace DecodingProxy.Tcp
open DecodingProxy.Runtime DecodingProxy.Runs DecodingProxy.Chains

inductive ChainCall
  | moveToStalled (client : ClientId) (pick : ℕ)
  | revive
  | timeOut (r : EntryId)
  deriving DecidableEq, Repr

/-- The data of the domain, and the list that the chain stands for. -/
structure ChainSession where
  data : StalledConnections := {}
  stalled : List (EntryId × ClientId) := []

namespace ChainSession

/-- `FindHead` gives nothing where the head is null. A revival cancels the watchdog. -/
def step (s : ChainSession) : ChainCall → Except Halt ChainSession
  | .moveToStalled client pick => do
    let (r, data) := s.data.get pick
    let data ← (data.init r client).append r
    .ok { data, stalled := s.stalled ++ [(r, client)] }
  | .revive =>
    if s.data.head = none then .ok s
    else do
      let (r, data) ← s.data.takeHead
      let data ← (data.cancel r).dispose r
      .ok { data, stalled := s.stalled.tail }
  | .timeOut r => do
    let data ← s.data.removeFromChain r
    let data ← data.dispose r
    .ok { data, stalled := s.stalled.filter fun entry => entry.1 ≠ r }

def ids (s : ChainSession) : List EntryId := s.stalled.map Prod.fst

/-- However long `next` is followed, it visits the entries of the list, each once, and each one
holds the connection of the list. -/
structure Refines (s : ChainSession) : Prop where
  visits : ∀ n, s.stalled.length ≤ n → follow s.data.next n s.data.head = s.ids
  once : s.ids.Nodup
  clients : ∀ entry ∈ s.stalled, s.data.client entry.1 = some entry.2

/-- A watchdog that times out has its entry in the chain. -/
def InChain (s : ChainSession) : ChainCall → Prop
  | .timeOut r => r ∈ s.ids
  | _ => True

instance (s : ChainSession) (a : ChainCall) : Decidable (s.InChain a) := by
  cases a <;> unfold InChain <;> infer_instance

structure Sound (s : ChainSession) : Prop where
  holds : s.data.Holds s.ids
  clients : ∀ entry ∈ s.stalled, s.data.client entry.1 = some entry.2
  stocked : s.data.Stocked s.ids
  clean : ∀ r ∈ s.data.pool, s.data.IsClean r

variable {s : ChainSession}

theorem sound_start : Sound {} :=
  ⟨StalledConnections.holds_start, by simp, ⟨List.nodup_nil, by simp, by simp⟩, by simp⟩

theorem Sound.refines (h : s.Sound) : s.Refines :=
  ⟨fun _ hn => h.holds.chain.follow_eq (by simpa [ids] using hn), h.holds.chain.nodup, h.clients⟩

theorem Sound.moveToStalled (h : s.Sound) (client : ClientId) (pick : ℕ) :
    ∃ t, s.step (.moveToStalled client pick) = .ok t ∧ t.Sound := by
  obtain ⟨r, d, hget, hgot⟩ := StalledConnections.get_got h.holds h.stocked pick
  have hr : r ∉ s.ids := h.stocked.outside h.holds hgot.source
  have hknown := hgot.known h.stocked
  have hclean : (d.init r client).IsClean r := by
    have hd := hgot.clean (h.clean r)
    simpa [StalledConnections.IsClean, StalledConnections.init, StalledConnections.next,
      StalledConnections.previous] using hd
  obtain ⟨t, happend, hholds, hrelinked⟩ := (hgot.holds.set hr _).append hr
    (s := d.init r client) hknown.1 (by simp [StalledConnections.client, StalledConnections.init])
    (by simpa [StalledConnections.init] using hgot.bound) hclean
  have hentries : ∀ x, x ≠ r → (d.init r client).entries x = s.data.entries x := fun x hx =>
    (StalledConnections.set_entries_of_ne hx _ _).trans (hgot.others x hx)
  have hpool : ∀ x ∈ t.pool, x ∈ s.data.pool ∧ x ≠ r := fun x hx =>
    hgot.mem_pool h.stocked (hrelinked.pool ▸ hx)
  refine ⟨⟨t, s.stalled ++ [(r, client)]⟩, ?_, ?_, ?_, ⟨?_, ?_, ?_⟩, ?_⟩
  · simp only [step, hget]
    exact do_of_ok happend
  · simpa [ids] using hholds
  · intro entry hentry
    rw [(hrelinked.fields entry.1).1]
    rcases List.mem_append.mp hentry with hold | hnew
    · have hne : entry.1 ≠ r := ne_of_mem_of_not_mem (List.mem_map_of_mem hold) hr
      unfold StalledConnections.client
      rw [hentries _ hne]
      exact h.clients entry hold
    · rw [List.mem_singleton.mp hnew]
      simp [StalledConnections.client, StalledConnections.init]
  · rw [hrelinked.pool]
    exact hgot.pool ▸ h.stocked.nodup.erase r
  · intro x hx
    rw [hrelinked.allocated]
    exact (h.stocked.known x (hpool x hx).1).trans_le hknown.2
  · intro x hx
    obtain ⟨hmem, hxr⟩ := hpool x hx
    simpa [ids, hxr] using h.stocked.apart x hmem
  · intro x hx
    obtain ⟨hmem, hxr⟩ := hpool x hx
    refine (h.clean x hmem).of_entries ?_
    rw [hrelinked.links x (by simpa [hxr] using h.stocked.apart x hmem), hentries x hxr]

/-- An entry that was taken out of the chain is disposed. -/
theorem Sound.leave (h : s.Sound) {t : StalledConnections} {r : EntryId} (hr : r ∈ s.ids)
    {rest : List (EntryId × ClientId)} (hrest : rest.map Prod.fst = s.ids.erase r)
    (hsub : ∀ entry ∈ rest, entry ∈ s.stalled) (ht : t.Holds (s.ids.erase r))
    (hrelinked : StalledConnections.Relinked (s.ids.erase r) s.data t) :
    ∃ u, t.dispose r = .ok u ∧ Sound ⟨u, rest⟩ := by
  have hout : r ∉ s.ids.erase r := h.holds.chain.nodup.not_mem_erase
  obtain ⟨hreturn, hholds⟩ := ht.returnToPool (r := r) (by
    rw [(hrelinked.fields r).2]
    exact (h.holds.held r hr).2)
  have hfree : r ∉ s.data.pool := fun hmem => h.stocked.apart r hmem hr
  refine ⟨_, do_of_ok hreturn, ?_, ?_, ⟨?_, ?_, ?_⟩, ?_⟩
  · simp only [ids, hrest]
    exact hholds.set hout _
  · intro entry hentry
    have hmem : entry.1 ∈ s.ids.erase r := hrest ▸ List.mem_map_of_mem hentry
    have hne : entry.1 ≠ r := ne_of_mem_of_not_mem hmem hout
    have hclient := h.clients entry (hsub entry hentry)
    rw [← (hrelinked.fields entry.1).1] at hclient
    simpa [StalledConnections.client, StalledConnections.clear,
      StalledConnections.set_entries_of_ne hne] using hclient
  · refine List.nodup_cons.mpr ⟨?_, ?_⟩
    · rwa [hrelinked.pool]
    · rw [hrelinked.pool]
      exact h.stocked.nodup
  · refine List.forall_mem_cons.mpr ⟨?_, fun x hx => ?_⟩
    · exact hrelinked.allocated ▸ h.holds.known r hr
    · rw [hrelinked.pool] at hx
      exact hrelinked.allocated ▸ h.stocked.known x hx
  · simp only [ids, hrest]
    refine List.forall_mem_cons.mpr ⟨hout, fun x hx hmem => ?_⟩
    rw [hrelinked.pool] at hx
    exact h.stocked.apart x hx (List.mem_of_mem_erase hmem)
  · refine List.forall_mem_cons.mpr ⟨StalledConnections.clear_clean r _, fun x hx => ?_⟩
    rw [hrelinked.pool] at hx
    have hxr : x ≠ r := ne_of_mem_of_not_mem hx hfree
    refine (h.clean x hx).of_entries ?_
    refine (StalledConnections.set_entries_of_ne hxr _ _).trans (hrelinked.links x fun hmem => ?_)
    exact h.stocked.apart x hx (List.mem_of_mem_erase hmem)

theorem Sound.revive (h : s.Sound) : ∃ t, s.step .revive = .ok t ∧ t.Sound := by
  simp only [step]
  have hhead := h.holds.chain.head
  cases hstalled : s.stalled with
  | nil =>
    rw [ids, hstalled, List.map_nil, List.head?_nil] at hhead
    rw [if_pos hhead]
    exact ⟨s, rfl, h⟩
  | cons entry rest =>
    have hids : s.ids = entry.1 :: rest.map Prod.fst := by rw [ids, hstalled, List.map_cons]
    have hholds := h.holds
    rw [hids] at hholds hhead
    obtain ⟨d, htake, hd, hrelinked⟩ := hholds.takeHead
    have herase : s.ids.erase entry.1 = rest.map Prod.fst := by rw [hids, List.erase_cons_head]
    rw [← herase] at hd hrelinked
    obtain ⟨u, hdispose, hsound⟩ := h.leave (t := d.cancel entry.1) (r := entry.1)
      (by simp [hids]) herase.symm (fun e he => by simp [hstalled, he])
      ⟨hd.chain, hd.known, hd.held⟩
      ⟨hrelinked.allocated, hrelinked.pool, hrelinked.fields, hrelinked.links⟩
    rw [if_neg (by simp [hhead]), do_of_ok htake]
    exact ⟨_, do_of_ok hdispose, hsound⟩

theorem Sound.timeOut (h : s.Sound) {r : EntryId} (hr : r ∈ s.ids) :
    ∃ t, s.step (.timeOut r) = .ok t ∧ t.Sound := by
  obtain ⟨d, hremove, hd, hrelinked⟩ := h.holds.removeFromChain hr
  have hrest : (s.stalled.filter fun entry => entry.1 ≠ r).map Prod.fst = s.ids.erase r := by
    rw [h.holds.chain.nodup.erase_eq_filter, ids, List.filter_map]
    congr 1
    apply List.filter_congr
    intro entry _
    simp only [Function.comp, bne, ne_eq, decide_not]
    congr 1
  obtain ⟨u, hdispose, hsound⟩ := h.leave hr hrest (fun entry he => (List.mem_filter.mp he).1)
    hd hrelinked
  simp only [step]
  rw [do_of_ok hremove]
  exact ⟨_, do_of_ok hdispose, hsound⟩

theorem chain_refines_queue (calls : List ChainCall) (h : Along step InChain {} calls) :
    RunsWell step Refines {} calls := by
  refine (runsWell_iff_along (C := fun _ _ => True) (fun _ h => h.refines) ?_ ?_ sound_start h).mpr
    (along_of_forall fun _ _ _ => trivial)
  · intro s a hsound hin _
    cases a with
    | moveToStalled client pick => exact hsound.moveToStalled client pick
    | revive => exact hsound.revive
    | timeOut r => exact hsound.timeOut hin
  · exact fun _ _ _ _ hnot => absurd trivial hnot

/-- Three connections are stalled; the middle one times out, the oldest is revived, and the
entry of the middle one is used again. -/
theorem chain_refines_queue_reused :
    RunsWell step Refines {} [.moveToStalled 1 0, .moveToStalled 2 0, .moveToStalled 3 0,
      .timeOut 1, .revive, .moveToStalled 4 1] :=
  chain_refines_queue _ (by decide)

end ChainSession

end DecodingProxy.Tcp
