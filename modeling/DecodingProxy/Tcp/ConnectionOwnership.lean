import DecodingProxy.Tcp.DomainThreads

/-!
# Who owns a connection

In every run whose steps are careful, each connection is in the dictionary, on its way into the
chain or out of it, in the chain, or killed, and in one of these places only. The entries of the
chain, the free ones and those that a thread has for itself are kept apart.
-/

namespace DecodingProxy.Tcp
open DecodingProxy.Runtime DecodingProxy.Runs

/-- What a thread relies on in the entry that it has for itself. -/
def Point.Fits (data : StalledConnections) : Point → Prop
  | tryRevive r => data.client r ≠ none ∧ (data.entries r).bound = true
  | cancel r _ | tryAdd r _ | returnToPool r _ => (data.entries r).bound = true
  | init r _ => (data.entries r).bound = true ∧ data.IsClean r
  | append r c => data.client r = some c ∧ (data.entries r).bound = true ∧ data.IsClean r
  | _ => True

/-- The chain `rs` and the free entries, next to the threads `ts`. -/
structure Tidy (rs : List EntryId) (ts : List Point) (data : StalledConnections) : Prop where
  holds : data.Holds rs
  apart : (rs ++ (data.pool ++ ts.flatMap Point.entry)).Nodup
  known : ∀ r ∈ data.pool ++ ts.flatMap Point.entry, r < data.allocated
  fits : ∀ p ∈ ts, p.Fits data
  clearing : ∀ r ∈ ts.flatMap Point.clearing, r ∈ data.pool
  clean : ∀ r ∈ data.pool, r ∉ ts.flatMap Point.clearing → data.IsClean r

variable {rs rs' : List EntryId} {ts ps : List Point} {p : Point} {data data' : StalledConnections}

theorem Point.fits_congr (h : ∀ r ∈ p.entry, data'.entries r = data.entries r)
    (hfits : p.Fits data) : p.Fits data' := by
  cases p <;>
    simp_all [Point.Fits, Point.entry, StalledConnections.client, StalledConnections.IsClean,
      StalledConnections.next, StalledConnections.previous]

theorem Point.stalling_congr (h : ∀ r ∈ p.entry, data'.client r = data.client r) :
    p.stalling data' = p.stalling data := by
  cases p <;> simp_all [Point.stalling, Point.entry]

theorem tidy_start : Tidy [] [] {} :=
  ⟨StalledConnections.holds_start, List.nodup_nil, by simp, by simp, by simp, by simp⟩

theorem Tidy.perm {us : List Point} (h : Tidy rs ts data) (hperm : ts.Perm us) :
    Tidy rs us data := by
  have hentry := hperm.flatMap_right Point.entry
  have hclearing := hperm.flatMap_right Point.clearing
  refine ⟨h.holds, ?_, fun r hr => h.known r ?_, fun q hq => h.fits q (hperm.mem_iff.mpr hq),
    fun r hr => h.clearing r (hclearing.mem_iff.mpr hr),
    fun r hr hnot => h.clean r hr (hclearing.mem_iff.not.mpr hnot)⟩
  · exact ((hentry.append_left data.pool).append_left rs).nodup_iff.mp h.apart
  · exact (hentry.append_left data.pool).mem_iff.mpr hr

theorem Tidy.chain_eq (h : Tidy rs ts data) : data.chain = rs := h.holds.chain_eq

/-- The entries that other threads have are none of those that `p` works on. -/
theorem Tidy.others (h : Tidy rs (p :: ts) data) {q : Point} (hq : q ∈ ts) {r : EntryId}
    (hr : r ∈ q.entry) : r ∉ rs ∧ r ∉ data.pool ∧ r ∉ p.entry ∧ r < data.allocated := by
  have hmem : r ∈ ts.flatMap Point.entry := List.mem_flatMap.mpr ⟨q, hq, hr⟩
  have happart := h.apart
  simp only [List.flatMap_cons, List.nodup_append, List.mem_append] at happart
  refine ⟨fun hrs => ?_, fun hpool => ?_, fun hp => ?_, h.known r (by simp [hmem])⟩
  · exact happart.2.2 r hrs r (.inr (.inr hmem)) rfl
  · exact happart.2.1.2.2 r hpool r (.inr hmem) rfl
  · exact happart.2.1.2.1.2.2 r hp r hmem rfl

/-- A thread goes on. The entries that it moves between the chain, the pool and itself are its
own, or a new one. -/
theorem Tidy.advance (h : Tidy rs (p :: ts) data) (hholds : data'.Holds rs')
    (hmoved : (rs' ++ (data'.pool ++ ps.flatMap Point.entry)).Subperm
      (data.allocated :: (rs ++ (data.pool ++ p.entry))))
    (hknown : ∀ r ∈ data'.pool ++ ps.flatMap Point.entry, r < data'.allocated)
    (hallocated : data.allocated ≤ data'.allocated)
    (hsame : ∀ q ∈ ts, ∀ r ∈ q.entry, data'.entries r = data.entries r)
    (hfits : ∀ q ∈ ps, q.Fits data')
    (hclearing : ∀ r ∈ (ts ++ ps).flatMap Point.clearing, r ∈ data'.pool)
    (hclean : ∀ r ∈ data'.pool, r ∉ (ts ++ ps).flatMap Point.clearing → data'.IsClean r) :
    Tidy rs' (ts ++ ps) data' := by
  have hall : (data.allocated :: (rs ++ (data.pool ++ (p :: ts).flatMap Point.entry))).Nodup := by
    refine List.nodup_cons.mpr ⟨fun hmem => ?_, h.apart⟩
    rcases List.mem_append.mp hmem with hrs | hrest
    · exact Nat.lt_irrefl _ (h.holds.known _ hrs)
    · exact Nat.lt_irrefl _ (h.known _ hrest)
  have hsub : (rs' ++ (data'.pool ++ (ts ++ ps).flatMap Point.entry)).Subperm
      (data.allocated :: (rs ++ (data.pool ++ (p :: ts).flatMap Point.entry))) := by
    have hgroup : (rs' ++ (data'.pool ++ (ts ++ ps).flatMap Point.entry)).Perm
        (rs' ++ (data'.pool ++ ps.flatMap Point.entry) ++ ts.flatMap Point.entry) := by
      rw [List.flatMap_append]
      simp only [List.append_assoc]
      exact (List.perm_append_comm.append_left _).append_left _
    apply hgroup.subperm.trans
    simpa only [List.cons_append, List.append_assoc, List.flatMap_cons] using
      (List.subperm_append_right (ts.flatMap Point.entry)).mpr hmoved
  refine ⟨hholds, ?_, fun r hr => ?_, fun q hq => ?_, hclearing, hclean⟩
  · obtain ⟨l, hl, hsublist⟩ := hsub
    exact hl.nodup_iff.mp (hall.sublist hsublist)
  · simp only [List.flatMap_append, List.mem_append] at hr
    rcases hr with hpool | hts | hps
    · exact hknown r (by simp [hpool])
    · refine (h.known r ?_).trans_le hallocated
      simp only [List.flatMap_cons, List.mem_append]
      exact .inr (.inr hts)
    · exact hknown r (List.mem_append_right _ hps)
  · rcases List.mem_append.mp hq with hts | hps
    · exact Point.fits_congr (hsame q hts) (h.fits q (List.mem_cons_of_mem p hts))
    · exact hfits q hps

/-- A step that leaves the chain and the pool alone. -/
theorem Tidy.goOn (h : Tidy rs (p :: ts) data)
    (hentry : (ps.flatMap Point.entry).Sublist p.entry) (hp : p.clearing = [])
    (hps : ps.flatMap Point.clearing = []) (hfits : ∀ q ∈ ps, q.Fits data) :
    Tidy rs (ts ++ ps) data := by
  have hsame : (ts ++ ps).flatMap Point.clearing = (p :: ts).flatMap Point.clearing := by
    rw [List.flatMap_append, hps, List.flatMap_cons, hp, List.append_nil, List.nil_append]
  refine h.advance h.holds ?_ (fun r hr => h.known r ?_) le_rfl (fun _ _ _ _ => rfl) hfits ?_ ?_
  · exact .cons_right _ ((hentry.append_left data.pool).append_left rs).subperm
  · rw [List.flatMap_cons, ← List.append_assoc]
    exact List.mem_append_left _ ((hentry.append_left data.pool).subset hr)
  · rw [hsame]
    exact h.clearing
  · rw [hsame]
    exact h.clean

theorem Tidy.cancel (h : Tidy rs ts data) (r : EntryId) : Tidy rs ts (data.cancel r) :=
  ⟨⟨h.holds.chain, h.holds.known, h.holds.held⟩, h.apart, h.known,
    fun q hq => Point.fits_congr (fun _ _ => rfl) (h.fits q hq), h.clearing, h.clean⟩

/-- A change of links in the chain and in the entry of `p`. -/
theorem Tidy.relink (h : Tidy rs (p :: ts) data) (hholds : data'.Holds rs')
    (hrelinked : StalledConnections.Relinked rs' data data')
    (hmoved : (rs' ++ ps.flatMap Point.entry).Perm (rs ++ p.entry)) (hp : p.clearing = [])
    (hps : ps.flatMap Point.clearing = []) (hfits : ∀ q ∈ ps, q.Fits data') :
    Tidy rs' (ts ++ ps) data' := by
  have hclearing : (ts ++ ps).flatMap Point.clearing = (p :: ts).flatMap Point.clearing := by
    rw [List.flatMap_append, hps, List.flatMap_cons, hp, List.append_nil, List.nil_append]
  have hgroup : ∀ xs ys zs : List EntryId, (xs ++ (ys ++ zs)).Perm (ys ++ (xs ++ zs)) :=
    fun xs ys zs => by
      rw [← List.append_assoc, ← List.append_assoc]
      exact List.perm_append_comm.append_right zs
  have hpool := hrelinked.pool
  have houtside : ∀ r, r ∉ rs → r ∉ p.entry → data'.entries r = data.entries r := by
    intro r hr hrp
    apply hrelinked.links r
    intro hmem
    rcases List.mem_append.mp (hmoved.subset (List.mem_append_left _ hmem)) with hrs | hentry
    · exact hr hrs
    · exact hrp hentry
  refine h.advance hholds ?_ (fun r hr => ?_) hrelinked.allocated.ge (fun q hq r hr => ?_) hfits
    ?_ ?_
  · rw [hpool]
    refine .cons_right _ (List.Perm.subperm ?_)
    exact (hgroup _ _ _).trans ((hmoved.append_left data.pool).trans (hgroup _ _ _).symm)
  · rw [hrelinked.allocated]
    rw [hpool] at hr
    rcases List.mem_append.mp hr with hpool | hentry
    · exact h.known r (List.mem_append_left _ hpool)
    · rcases List.mem_append.mp (hmoved.subset (List.mem_append_right _ hentry)) with hrs | hrp
      · exact h.holds.known r hrs
      · exact h.known r (List.mem_append_right _ (List.mem_flatMap.mpr ⟨p, by simp, hrp⟩))
  · obtain ⟨hrs, -, hrp, -⟩ := h.others hq hr
    exact houtside r hrs hrp
  · rw [hclearing, hpool]
    exact h.clearing
  · rw [hclearing, hpool]
    intro r hr hnot
    refine (h.clean r hr hnot).of_entries (houtside r (fun hrs => ?_) fun hrp => ?_)
    · exact (List.nodup_append.mp h.apart).2.2 r hrs r (List.mem_append_left _ hr) rfl
    · have hrest := (List.nodup_append.mp (List.nodup_append.mp h.apart).2.1).2.2
      exact hrest r hr r (List.mem_flatMap.mpr ⟨p, by simp, hrp⟩) rfl

theorem Tidy.lockHead {r : EntryId} (h : Tidy (r :: rs) (.lockHead :: ts) data) :
    ∃ data', data.takeHead = .ok (r, data') ∧ Tidy rs (ts ++ [.tryRevive r]) data' ∧
      StalledConnections.Relinked rs data data' := by
  obtain ⟨data', htake, hholds, hrelinked⟩ := h.holds.takeHead
  have hheld := h.holds.held r List.mem_cons_self
  refine ⟨data', htake, h.relink hholds hrelinked ?_ rfl rfl ?_, hrelinked⟩
  · simp [Point.entry]
  · simpa [Point.Fits, hrelinked.fields r] using hheld

theorem Tidy.append {r : EntryId} {c : ClientId} (h : Tidy rs (.append r c :: ts) data) :
    ∃ data', data.append r = .ok data' ∧ Tidy (rs ++ [r]) (ts ++ []) data' ∧
      StalledConnections.Relinked (rs ++ [r]) data data' ∧ data.client r = some c := by
  obtain ⟨hclient, hbound, hclean⟩ := h.fits _ List.mem_cons_self
  have hr : r ∉ rs := fun hrs =>
    (List.nodup_append.mp h.apart).2.2 r hrs r (by simp [Point.entry]) rfl
  have hknown : r < data.allocated := h.known r (by simp [Point.entry])
  obtain ⟨data', happend, hholds, hrelinked⟩ :=
    h.holds.append hr hknown (by simp [hclient]) hbound hclean
  refine ⟨data', happend, h.relink hholds hrelinked ?_ rfl rfl (by simp), hrelinked, hclient⟩
  simp [Point.entry]

theorem Tidy.removeFromChain {r : EntryId} {c : ClientId}
    (h : Tidy rs (.removeFromChain r c :: ts) data) (hr : r ∈ rs) :
    ∃ data', data.removeFromChain r = .ok data' ∧
      Tidy (rs.erase r) (ts ++ [.returnToPool r (some c)]) data' ∧
      StalledConnections.Relinked (rs.erase r) data data' := by
  obtain ⟨data', hremove, hholds, hrelinked⟩ := h.holds.removeFromChain hr
  refine ⟨data', hremove, h.relink hholds hrelinked ?_ rfl rfl ?_, hrelinked⟩
  · simpa [Point.entry] using (List.perm_append_singleton r _).trans (List.perm_cons_erase hr).symm
  · simpa [Point.Fits, hrelinked.fields r] using (h.holds.held r hr).2

theorem Tidy.returnToPool {r : EntryId} {victim : Option ClientId}
    (h : Tidy rs (.returnToPool r victim :: ts) data) :
    data.returnToPool r = .ok { data with pool := r :: data.pool } ∧
      Tidy rs (ts ++ [.clear r victim]) { data with pool := r :: data.pool } := by
  obtain ⟨hreturn, hholds⟩ := h.holds.returnToPool (h.fits _ List.mem_cons_self)
  have hknown : r < data.allocated := h.known r (by simp [Point.entry])
  refine ⟨hreturn, h.advance hholds ?_ ?_ le_rfl (fun _ _ _ _ => rfl) (by simp [Point.Fits]) ?_ ?_⟩
  · refine .cons_right _ (List.Perm.subperm (List.Perm.append_left rs ?_))
    simpa [Point.entry] using (List.perm_append_singleton r data.pool).symm
  · simp only [Point.entry, List.flatMap_cons, List.flatMap_nil, List.append_nil]
    exact List.forall_mem_cons.mpr ⟨hknown, fun x hx => h.known x (List.mem_append_left _ hx)⟩
  · intro x hx
    rw [List.flatMap_append, List.mem_append] at hx
    rcases hx with hts | hps
    · exact List.mem_cons_of_mem r (h.clearing x (by simpa [Point.clearing] using hts))
    · simp [Point.clearing] at hps
      exact hps ▸ List.mem_cons_self
  · intro x hx hnot
    simp only [List.flatMap_append, List.mem_append, not_or] at hnot
    rcases List.mem_cons.mp hx with rfl | hpool
    · exact absurd (by simp [Point.clearing]) hnot.2
    · exact h.clean x hpool (by simpa [Point.clearing] using hnot.1)

theorem Tidy.clear {r : EntryId} {victim : Option ClientId}
    (h : Tidy rs (.clear r victim :: ts) data) :
    Tidy rs (ts ++ victim.toList.map .kill) (data.clear r) := by
  have hfree : r ∈ data.pool := h.clearing r (by simp [Point.clearing])
  have hr : r ∉ rs := fun hrs =>
    (List.nodup_append.mp h.apart).2.2 r hrs r (List.mem_append_left _ hfree) rfl
  have hentry : (victim.toList.map Point.kill).flatMap Point.entry = [] := by
    cases victim <;> rfl
  have hclearing : (victim.toList.map Point.kill).flatMap Point.clearing = [] := by
    cases victim <;> rfl
  refine h.advance (h.holds.set hr _) ?_ ?_ le_rfl (fun q hq x hx => ?_) ?_ ?_ fun x hx hnot => ?_
  · rw [hentry]
    exact .cons_right _ (.refl _)
  · rw [hentry, List.append_nil]
    exact fun x hx => h.known x (List.mem_append_left _ hx)
  · obtain ⟨-, hpool, -, -⟩ := h.others hq hx
    exact StalledConnections.set_entries_of_ne (ne_of_mem_of_not_mem hfree hpool).symm _ _
  · intro q hq
    obtain ⟨c, -, rfl⟩ := List.mem_map.mp hq
    trivial
  · rw [List.flatMap_append, hclearing, List.append_nil]
    exact fun x hx => h.clearing x (List.mem_append_right [r] hx)
  · by_cases hxr : x = r
    · rw [hxr]
      exact StalledConnections.clear_clean r data
    · rw [List.flatMap_append, hclearing, List.append_nil] at hnot
      refine (h.clean x hx ?_).of_entries (StalledConnections.set_entries_of_ne hxr _ _)
      rw [List.flatMap_cons, List.mem_append, not_or]
      exact ⟨List.not_mem_cons_of_ne_of_not_mem hxr List.not_mem_nil, hnot⟩

theorem Tidy.init {r : EntryId} {c : ClientId} (h : Tidy rs (.init r c :: ts) data) :
    Tidy rs (ts ++ [.append r c]) (data.init r c) := by
  obtain ⟨hbound, hclean⟩ := h.fits _ List.mem_cons_self
  have hr : r ∉ rs ∧ r ∉ data.pool := by
    have happart := h.apart
    simp only [List.flatMap_cons, Point.entry, List.nodup_append, List.mem_append] at happart
    exact ⟨fun hrs => happart.2.2 r hrs r (.inr (.inl List.mem_cons_self)) rfl,
      fun hpool => happart.2.1.2.2 r hpool r (.inl List.mem_cons_self) rfl⟩
  have hclearing : (ts ++ [Point.append r c]).flatMap Point.clearing =
      (Point.init r c :: ts).flatMap Point.clearing := by
    simp [Point.clearing]
  refine h.advance (h.holds.set hr.1 _) (.cons_right _ (.refl _)) (fun x hx => h.known x ?_) le_rfl
    (fun q hq x hx => ?_) ?_ ?_ ?_
  · simp only [Point.entry, List.flatMap_cons, List.flatMap_nil, List.append_nil,
      List.mem_append] at hx ⊢
    exact hx.imp_right .inl
  · obtain ⟨-, -, hp, -⟩ := h.others hq hx
    exact StalledConnections.set_entries_of_ne (by simpa [Point.entry] using hp) _ _
  · simp only [List.mem_singleton, forall_eq]
    refine ⟨?_, ?_, ?_⟩
    · simp [StalledConnections.client, StalledConnections.init]
    · simpa [StalledConnections.init] using hbound
    · simpa [StalledConnections.IsClean, StalledConnections.init, StalledConnections.next,
        StalledConnections.previous] using hclean
  · rw [hclearing]
    exact h.clearing
  · rw [hclearing]
    intro x hx hnot
    exact (h.clean x hx hnot).of_entries
      (StalledConnections.set_entries_of_ne (ne_of_mem_of_not_mem hx hr.2) _ _)

theorem Tidy.moveToStalled {c : ClientId} (h : Tidy rs (.moveToStalled c :: ts) data) (pick : ℕ)
    (hcleared : (data.get pick).1 ∉ ts.flatMap Point.clearing) :
    ∃ r data', data.get pick = (r, data') ∧ Tidy rs (ts ++ [.watchdog r c, .init r c]) data' ∧
      (∀ q ∈ ts, r ∉ q.entry) ∧ r ∉ rs ∧ ∀ x, x ≠ r → data'.entries x = data.entries x := by
  have happart := h.apart
  simp only [List.nodup_append, List.mem_append] at happart
  have hstock : data.Stocked rs := ⟨happart.2.1.1, fun r hr => h.known r (by simp [hr]),
    fun r hr hrs => happart.2.2 r hrs r (.inl hr) rfl⟩
  obtain ⟨r, data', hget, hgot⟩ := StalledConnections.get_got h.holds hstock pick
  rw [hget] at hcleared
  have hts : ∀ q ∈ ts, r ∉ q.entry := by
    intro q hq hr
    obtain ⟨-, hpool, -, hless⟩ := h.others hq hr
    rcases hgot.source with ⟨hmem, -⟩ | ⟨rfl, -⟩
    · exact hpool hmem
    · exact Nat.lt_irrefl _ hless
  have hrs : r ∉ rs := hstock.outside h.holds hgot.source
  have hless := hgot.known hstock
  have hentry : [Point.watchdog r c, Point.init r c].flatMap Point.entry = [r] := rfl
  have hclearing : (ts ++ [Point.watchdog r c, Point.init r c]).flatMap Point.clearing =
      (Point.moveToStalled c :: ts).flatMap Point.clearing := by
    simp [Point.clearing]
  have hfree := fun x hx => hgot.mem_pool (x := x) hstock hx
  refine ⟨r, data', hget, ?_, hts, hrs, hgot.others⟩
  refine h.advance hgot.holds ?_ (fun x hx => ?_) hless.2 (fun q hq x hx => ?_) ?_ ?_ ?_
  · rw [hentry, hgot.pool]
    have hback : (data.pool.erase r ++ [r]).Subperm (data.allocated :: data.pool) := by
      rcases hgot.source with ⟨hmem, -⟩ | ⟨rfl, -⟩
      · refine .cons_right _ (List.Perm.subperm ?_)
        exact (List.perm_append_singleton r _).trans (List.perm_cons_erase hmem).symm
      · rw [List.erase_of_not_mem hstock.allocated_not_mem]
        exact (List.perm_append_singleton _ _).subperm
    have hnone : (Point.moveToStalled c).entry = [] := rfl
    rw [hnone, List.append_nil]
    exact ((List.subperm_append_left rs).mpr hback).trans List.perm_middle.subperm
  · rw [hentry] at hx
    rcases List.mem_append.mp hx with hpool | hnew
    · exact (hstock.known x (hfree x hpool).1).trans_le hless.2
    · exact List.mem_singleton.mp hnew ▸ hless.1
  · exact hgot.others x (ne_of_mem_of_not_mem hx (hts q hq))
  · have hclean : data'.IsClean r := by
      refine hgot.clean fun hmem => h.clean r hmem ?_
      simpa [Point.clearing] using hcleared
    simpa [Point.Fits] using ⟨hgot.bound, hclean⟩
  · rw [hclearing]
    intro x hx
    have hmem : x ∈ data.pool := h.clearing x hx
    have hne : x ≠ r := by
      rintro rfl
      exact hcleared (by simpa [Point.clearing] using hx)
    rw [hgot.pool]
    exact (List.mem_erase_of_ne hne).mpr hmem
  · rw [hclearing]
    intro x hx hnot
    exact (h.clean x (hfree x hx).1 hnot).of_entries (hgot.others x (hfree x hx).2)

namespace DomainRun

/-- In how many places a connection is. -/
def places (s : DomainRun) (c : ClientId) : ℕ :=
  s.handedOut.count c + s.stalled.count c + s.killed.count c

theorem places_eq (s : Domain) (ts : List Point) (c : ClientId) :
    places ⟨s, ts⟩ c = s.activeConnections.count c +
      ((s.data.chain.filterMap s.data.client).count c +
        (ts.flatMap (Point.stalling s.data)).count c) +
      (s.killed.count c + (ts.flatMap Point.killing).count c) := by
  simp only [places, handedOut, stalled, killed, List.count_append]

structure Sound (s : DomainRun) : Prop where
  tidy : Tidy s.domain.data.chain s.threads s.domain.data
  owned : ∀ c, s.places c = s.domain.clients.count c
  nodup : s.domain.clients.Nodup
  numbered : ∀ c ∈ s.domain.clients, c ≤ s.domain.counterForId

variable {s t : Domain} {choice : Choice}

theorem Sound.exclusive {s : DomainRun} (h : s.Sound) : s.Exclusive := by
  intro c hc
  have howned := h.owned c
  rwa [List.count_eq_one_of_mem h.nodup hc] at howned

theorem sound_start : Sound {} :=
  ⟨by simpa [tidy_start.chain_eq] using tidy_start, fun _ => rfl, List.nodup_nil, by simp⟩

theorem Sound.perm {us : List Point} (h : Sound ⟨s, ts⟩) (hperm : ts.Perm us) : Sound ⟨s, us⟩ := by
  refine ⟨h.tidy.perm hperm, fun c => ?_, h.nodup, h.numbered⟩
  rw [← h.owned c, places_eq, places_eq]
  rw [(hperm.flatMap_right (Point.stalling s.data)).count_eq,
    (hperm.flatMap_right Point.killing).count_eq]

theorem Sound.advance (h : Sound ⟨s, p :: ts⟩) (htidy : Tidy rs (ts ++ ps) t.data)
    (hothers : ∀ q ∈ ts, q.stalling t.data = q.stalling s.data)
    (hmoved : ∀ c, places ⟨t, ps⟩ c + s.clients.count c = places ⟨s, [p]⟩ c + t.clients.count c)
    (hnodup : t.clients.Nodup) (hnumbered : ∀ c ∈ t.clients, c ≤ t.counterForId) :
    Sound ⟨t, ts ++ ps⟩ := by
  refine ⟨?_, fun c => ?_, hnodup, hnumbered⟩
  · rwa [htidy.chain_eq]
  · have howned := h.owned c
    have hlocal := hmoved c
    have hsame : ts.flatMap (Point.stalling t.data) = ts.flatMap (Point.stalling s.data) := by
      simp only [List.flatMap]
      rw [List.map_congr_left hothers]
    simp only [places_eq, List.flatMap_append, List.flatMap_cons, List.flatMap_nil,
      List.append_nil, List.count_append, hsame] at howned hlocal ⊢
    omega

/-- A step that changes nothing that is shared. -/
theorem Sound.goOn (h : Sound ⟨s, p :: ts⟩) (hentry : (ps.flatMap Point.entry).Sublist p.entry)
    (hp : p.clearing = []) (hps : ps.flatMap Point.clearing = [])
    (hfits : ∀ q ∈ ps, q.Fits s.data)
    (hmoved : ps.flatMap (Point.stalling s.data) ++ ps.flatMap Point.killing =
      p.stalling s.data ++ p.killing) : Sound ⟨s, ts ++ ps⟩ := by
  refine h.advance (h.tidy.goOn hentry hp hps hfits) (fun _ _ => rfl) (fun c => ?_) h.nodup
    h.numbered
  have hcount := congrArg (List.count c) hmoved
  simp only [List.count_append] at hcount
  simp only [places_eq, List.flatMap_cons, List.flatMap_nil, List.append_nil]
  omega

theorem Sound.relink (h : Sound ⟨s, p :: ts⟩) {rs : List EntryId} {data : StalledConnections}
    (htidy : Tidy rs (ts ++ ps) data) (hclient : data.client = s.data.client)
    (hmoved : ∀ c, (rs.filterMap s.data.client).count c +
        (ps.flatMap (Point.stalling data) ++ ps.flatMap Point.killing).count c =
      (s.data.chain.filterMap s.data.client).count c +
        (p.stalling s.data ++ p.killing).count c) :
    Sound ⟨{ s with data }, ts ++ ps⟩ := by
  refine h.advance htidy (fun q _ => Point.stalling_congr fun r _ => congrFun hclient r)
    (fun c => ?_) h.nodup h.numbered
  have hcount := hmoved c
  simp only [List.count_append] at hcount
  have hchain : rs.filterMap data.client = rs.filterMap s.data.client := by rw [hclient]
  simp only [places_eq, List.flatMap_cons, List.flatMap_nil, List.append_nil, htidy.chain_eq]
  rw [hchain]
  omega

theorem Sound.lockHead (h : Sound ⟨s, .lockHead :: ts⟩) (hhead : s.data.head ≠ none) :
    ∃ t ps, s.advance choice .lockHead = .ok (t, ps) ∧ Sound ⟨t, ts ++ ps⟩ := by
  have htidy := h.tidy
  have hhead' := htidy.holds.chain.head
  dsimp only at htidy hhead'
  cases hchain : s.data.chain with
  | nil =>
    rw [hchain] at hhead'
    exact absurd hhead' hhead
  | cons r rest =>
    rw [hchain] at htidy
    obtain ⟨data, htake, hnext, hrelinked⟩ := htidy.lockHead
    have hclient : data.client = s.data.client := funext fun x => (hrelinked.fields x).1
    refine ⟨_, _, do_of_ok htake, h.relink hnext hclient fun c => ?_⟩
    obtain ⟨c', hc'⟩ := Option.ne_none_iff_exists'.mp (htidy.holds.held r List.mem_cons_self).1
    simp only [hchain, List.filterMap_cons, hc', Point.stalling, Point.killing, List.flatMap_cons,
      List.flatMap_nil, hclient, Option.toList_some, List.append_nil, List.count_cons,
      List.count_nil]
    omega

theorem Sound.append {r : EntryId} {c : ClientId} (h : Sound ⟨s, .append r c :: ts⟩) :
    ∃ t ps, s.advance choice (.append r c) = .ok (t, ps) ∧ Sound ⟨t, ts ++ ps⟩ := by
  obtain ⟨data, happend, hnext, hrelinked, hr⟩ := h.tidy.append
  have hclient : data.client = s.data.client := funext fun x => (hrelinked.fields x).1
  refine ⟨_, _, do_of_ok happend, h.relink hnext hclient fun x => ?_⟩
  dsimp only at hr
  simp [Point.stalling, Point.killing, hr]

theorem Sound.removeFromChain {r : EntryId} {c : ClientId}
    (h : Sound ⟨s, .removeFromChain r c :: ts⟩) (hr : r ∈ s.data.chain)
    (hc : s.data.client r = some c) :
    ∃ t ps, s.advance choice (.removeFromChain r c) = .ok (t, ps) ∧ Sound ⟨t, ts ++ ps⟩ := by
  obtain ⟨data, hremove, hnext, hrelinked⟩ := h.tidy.removeFromChain hr
  have hclient : data.client = s.data.client := funext fun x => (hrelinked.fields x).1
  refine ⟨_, _, do_of_ok hremove, h.relink hnext hclient fun x => ?_⟩
  have hperm := ((List.perm_cons_erase hr).filterMap s.data.client).count_eq x
  simp only [List.filterMap_cons, hc, List.count_cons] at hperm
  simp only [Point.stalling, Point.killing, List.flatMap_cons, List.flatMap_nil, List.append_nil,
    Option.toList_some, List.count_append, List.count_cons, List.count_nil]
  omega

theorem Sound.returnToPool {r : EntryId} {victim : Option ClientId}
    (h : Sound ⟨s, .returnToPool r victim :: ts⟩) :
    ∃ t ps, s.advance choice (.returnToPool r victim) = .ok (t, ps) ∧ Sound ⟨t, ts ++ ps⟩ := by
  obtain ⟨hreturn, hnext⟩ := h.tidy.returnToPool
  exact ⟨_, _, do_of_ok hreturn, h.relink hnext rfl fun x => by simp [Point.stalling, Point.killing]⟩

theorem Sound.change (h : Sound ⟨s, p :: ts⟩) {data : StalledConnections} {r : EntryId}
    (htidy : Tidy s.data.chain (ts ++ ps) data) (hr : r ∉ s.data.chain)
    (hts : ∀ q ∈ ts, r ∉ q.entry) (hsame : ∀ x, x ≠ r → data.entries x = s.data.entries x)
    (hmoved : ps.flatMap (Point.stalling data) ++ ps.flatMap Point.killing =
      p.stalling s.data ++ p.killing) : Sound ⟨{ s with data }, ts ++ ps⟩ := by
  have hclient : ∀ x, x ≠ r → data.client x = s.data.client x := fun x hx => by
    rw [StalledConnections.client, hsame x hx, StalledConnections.client]
  have hchain : s.data.chain.filterMap data.client = s.data.chain.filterMap s.data.client :=
    List.filterMap_congr fun x hx => hclient x (ne_of_mem_of_not_mem hx hr)
  refine h.advance htidy (fun q hq => Point.stalling_congr fun x hx => ?_) (fun c => ?_) h.nodup
    h.numbered
  · exact hclient x (ne_of_mem_of_not_mem hx (hts q hq))
  · have hcount := congrArg (List.count c) hmoved
    simp only [List.count_append] at hcount
    simp only [places_eq, List.flatMap_cons, List.flatMap_nil, List.append_nil, htidy.chain_eq]
    rw [hchain]
    omega

theorem Sound.moveToStalled {c : ClientId} (h : Sound ⟨s, .moveToStalled c :: ts⟩)
    (hcleared : (s.data.get choice.pick).1 ∉ ts.flatMap Point.clearing) :
    ∃ t ps, s.advance choice (.moveToStalled c) = .ok (t, ps) ∧ Sound ⟨t, ts ++ ps⟩ := by
  obtain ⟨r, data, hget, hnext, hts, hr, hsame⟩ := h.tidy.moveToStalled choice.pick hcleared
  dsimp only at hget
  refine ⟨_, _, by simp only [Domain.advance, hget], h.change hnext hr hts hsame ?_⟩
  simp [Point.stalling, Point.killing]

theorem Sound.init {r : EntryId} {c : ClientId} (h : Sound ⟨s, .init r c :: ts⟩) :
    ∃ t ps, s.advance choice (.init r c) = .ok (t, ps) ∧ Sound ⟨t, ts ++ ps⟩ := by
  refine ⟨_, _, rfl, h.change h.tidy.init (r := r) ?_ (fun q hq hr => ?_) (fun x hx => ?_) ?_⟩
  · exact fun hr => (List.nodup_append.mp h.tidy.apart).2.2 r hr r (by simp [Point.entry]) rfl
  · obtain ⟨-, -, hp, -⟩ := h.tidy.others hq hr
    exact hp (by simp [Point.entry])
  · exact StalledConnections.set_entries_of_ne hx _ _
  · simp [Point.stalling, Point.killing]

theorem Sound.clear {r : EntryId} {victim : Option ClientId}
    (h : Sound ⟨s, .clear r victim :: ts⟩) :
    ∃ t ps, s.advance choice (.clear r victim) = .ok (t, ps) ∧ Sound ⟨t, ts ++ ps⟩ := by
  have hfree : r ∈ s.data.pool := h.tidy.clearing r (by simp [Point.clearing])
  refine ⟨_, _, rfl, h.change h.tidy.clear (r := r) ?_ (fun q hq hr => ?_) (fun x hx => ?_) ?_⟩
  · exact fun hr =>
      (List.nodup_append.mp h.tidy.apart).2.2 r hr r (List.mem_append_left _ hfree) rfl
  · exact (h.tidy.others hq hr).2.1 hfree
  · exact StalledConnections.set_entries_of_ne hx _ _
  · cases victim <;> simp [Point.stalling, Point.killing]

/-- A step on the dictionary, the counter or the list of the killed. -/
theorem Sound.share (h : Sound ⟨s, p :: ts⟩) (hdata : t.data = s.data)
    (hentry : (ps.flatMap Point.entry).Sublist p.entry) (hp : p.clearing = [])
    (hps : ps.flatMap Point.clearing = []) (hfits : ∀ q ∈ ps, q.Fits s.data)
    (hmoved : ∀ c, (t.activeConnections ++ ps.flatMap (Point.stalling s.data) ++
        (t.killed ++ ps.flatMap Point.killing) ++ s.clients).count c =
      (s.activeConnections ++ p.stalling s.data ++ (s.killed ++ p.killing) ++ t.clients).count c)
    (hnodup : t.clients.Nodup) (hnumbered : ∀ c ∈ t.clients, c ≤ t.counterForId) :
    Sound ⟨t, ts ++ ps⟩ := by
  have htidy : Tidy s.data.chain (ts ++ ps) t.data := by
    rw [hdata]
    exact h.tidy.goOn hentry hp hps hfits
  refine h.advance htidy (fun q _ => by rw [hdata]) (fun c => ?_) hnodup hnumbered
  have hcount := hmoved c
  simp only [List.count_append] at hcount
  rw [places_eq, places_eq, hdata]
  simp only [List.flatMap_cons, List.flatMap_nil, List.append_nil]
  omega

theorem Sound.tryAdd {r : EntryId} {c : ClientId} (h : Sound ⟨s, .tryAdd r c :: ts⟩)
    (hkey : ¬ s.HasKey c) :
    ∃ t ps, s.advance choice (.tryAdd r c) = .ok (t, ps) ∧ Sound ⟨t, ts ++ ps⟩ := by
  refine ⟨_, _, if_neg hkey, h.share rfl (.refl _) rfl rfl ?_ (fun x => ?_) h.nodup h.numbered⟩
  · simpa [Point.Fits] using h.tidy.fits _ List.mem_cons_self
  · simp [Point.stalling, Point.killing, List.count_cons]
    omega

theorem Sound.create (h : Sound ⟨s, .create :: ts⟩) :
    ∃ t ps, s.advance choice .create = .ok (t, ps) ∧ Sound ⟨t, ts ++ ps⟩ := by
  have hcounted : ∀ c ∈ s.clients, c ≤ s.counterForId + 1 := fun c hc =>
    Nat.le_succ_of_le (h.numbered c hc)
  unfold Domain.advance
  dsimp only
  split_ifs with hkey
  · exact ⟨_, _, rfl, h.share rfl (.refl _) rfl rfl (by simp) (fun _ => rfl) h.nodup hcounted⟩
  · refine ⟨_, _, rfl, h.share rfl (.refl _) rfl rfl ?_ (fun x => ?_) ?_ ?_⟩
    · simp [Point.Fits]
    · simp [Point.stalling, Point.killing, List.count_cons]
      omega
    · refine List.nodup_cons.mpr ⟨fun hmem => ?_, h.nodup⟩
      exact Nat.not_succ_le_self _ (h.numbered _ hmem)
    · exact List.forall_mem_cons.mpr ⟨le_rfl, hcounted⟩

theorem Sound.kill {c : ClientId} (h : Sound ⟨s, .kill c :: ts⟩) :
    ∃ t ps, s.advance choice (.kill c) = .ok (t, ps) ∧ Sound ⟨t, ts ++ ps⟩ := by
  refine ⟨_, _, rfl, h.share rfl (.refl _) rfl rfl (by simp) (fun x => ?_) h.nodup h.numbered⟩
  simp [Point.stalling, Point.killing, List.count_cons]
  omega

/-- A thread that takes a connection out of the dictionary has it for itself. -/
theorem Sound.take {c : ClientId} {q : Point} (h : Sound ⟨s, p :: ts⟩) (hc : c ∈ s.activeConnections)
    (hentry : q.entry = []) (hp : p.clearing = []) (hq : q.clearing = []) (hfits : q.Fits s.data)
    (hbefore : p.stalling s.data ++ p.killing = [])
    (hafter : q.stalling s.data ++ q.killing = [c]) :
    Sound ⟨{ s with activeConnections := s.activeConnections.erase c }, ts ++ [q]⟩ := by
  refine h.share rfl ?_ hp ?_ ?_ (fun x => ?_) h.nodup h.numbered
  · simp [hentry]
  · simp [hq]
  · simpa using hfits
  · have htaken := (List.perm_cons_erase hc).count_eq x
    have hb := congrArg (List.count x) hbefore
    have ha := congrArg (List.count x) hafter
    simp only [List.count_append, List.count_cons, List.count_nil] at htaken hb ha
    simp only [List.flatMap_cons, List.flatMap_nil, List.append_nil, List.count_append]
    omega

theorem Sound.advance_ok (h : Sound ⟨s, p :: ts⟩) (hcareful : CarefulAt ⟨s, p :: ts⟩ choice p) :
    ∃ t ps, s.advance choice p = .ok (t, ps) ∧ Sound ⟨t, ts ++ ps⟩ := by
  cases p with
  | lockHead => exact h.lockHead hcareful
  | tryRevive r =>
    obtain ⟨hclient, hbound⟩ := h.tidy.fits _ List.mem_cons_self
    obtain ⟨c, hc⟩ := Option.ne_none_iff_exists'.mp hclient
    dsimp only at hc hbound
    simp only [Domain.advance, hc]
    refine ⟨_, _, rfl, ?_⟩
    split_ifs
    · apply h.goOn (.refl _) rfl rfl (by simpa [Point.Fits] using hbound)
      simp [Point.stalling, Point.killing, hc]
    · refine h.goOn (List.nil_sublist _) rfl rfl (by simp [Point.Fits]) ?_
      simp [Point.stalling, Point.killing, hc]
  | cancel r c =>
    have hbound := h.tidy.fits _ List.mem_cons_self
    have hnext : Tidy s.data.chain (ts ++ [.tryAdd r c]) s.data :=
      h.tidy.goOn (.refl _) rfl rfl (by simpa [Point.Fits] using hbound)
    exact ⟨_, _, rfl, h.relink (hnext.cancel r) rfl fun _ => rfl⟩
  | tryAdd r c => exact h.tryAdd hcareful
  | create => exact h.create
  | discard c =>
    simp only [Domain.advance]
    split_ifs with hc
    · exact ⟨_, _, rfl, h.take hc rfl rfl rfl (by simp [Point.Fits]) rfl rfl⟩
    · exact ⟨_, _, rfl, h.goOn (.refl _) rfl rfl (by simp [Point.Fits]) rfl⟩
  | tryRemove c =>
    simp only [Domain.advance]
    split_ifs with hc
    · exact ⟨_, _, rfl, h.take hc rfl rfl rfl (by simp [Point.Fits]) rfl rfl⟩
    · exact ⟨_, _, rfl, h.goOn (.refl _) rfl rfl (by simp [Point.Fits]) rfl⟩
  | moveToStalled c => exact h.moveToStalled (by simpa [CarefulAt, Point.clearing] using hcareful)
  | init r c => exact h.init
  | append r c => exact h.append
  | removeFromChain r c => exact h.removeFromChain hcareful.1 hcareful.2
  | returnToPool r victim => exact h.returnToPool
  | clear r victim => exact h.clear
  | kill c => exact h.kill
  | watchdog r c => exact ⟨_, _, rfl, h.goOn (.refl _) rfl rfl (by simp [Point.Fits]) rfl⟩
  -- what is left looks at the shared state and decides
  | findHead | connect c | containsKey c | checkConnect c | delay token r c =>
    refine ⟨_, _, rfl, ?_⟩
    split_ifs <;> exact h.goOn (.refl _) rfl rfl (by simp [Point.Fits]) rfl

theorem Sound.start {s : Domain} (h : Sound ⟨s, ts⟩) {q : Point}
    (hq : q = .findHead ∨ ∃ c, q = .containsKey c) : Sound ⟨s, ts ++ [q]⟩ := by
  have hidle : q.entry = [] ∧ q.clearing = [] ∧ q.stalling s.data = [] ∧ q.killing = [] ∧
      q.Fits s.data := by
    rcases hq with rfl | ⟨c, rfl⟩
    · exact ⟨rfl, rfl, rfl, rfl, by simp [Point.Fits]⟩
    · exact ⟨rfl, rfl, rfl, rfl, by simp [Point.Fits]⟩
  obtain ⟨hentry, hclearing, hstalling, hkilling, hfits⟩ := hidle
  have hnone : ∀ {f : Point → List ℕ}, f q = [] → (ts ++ [q]).flatMap f = ts.flatMap f :=
    fun hf => by simp [List.flatMap_append, hf]
  refine ⟨⟨h.tidy.holds, ?_, ?_, ?_, ?_, ?_⟩, fun c => ?_, h.nodup, h.numbered⟩
  · rw [hnone hentry]
    exact h.tidy.apart
  · rw [hnone hentry]
    exact h.tidy.known
  · intro p hp
    rcases List.mem_append.mp hp with hts | hnew
    · exact h.tidy.fits p hts
    · exact List.mem_singleton.mp hnew ▸ hfits
  · rw [hnone hclearing]
    exact h.tidy.clearing
  · rw [hnone hclearing]
    exact h.tidy.clean
  · rw [places_eq, hnone hstalling, hnone hkilling, ← places_eq]
    exact h.owned c

theorem CarefulAt.perm {us : List Point} (h : CarefulAt ⟨s, ts⟩ choice p) (hperm : ts.Perm us) :
    CarefulAt ⟨s, us⟩ choice p := by
  cases p with
  | moveToStalled c =>
    exact fun hmem => h ((hperm.flatMap_right Point.clearing).mem_iff.mpr hmem)
  | _ => exact h

theorem Sound.step {s : DomainRun} (h : s.Sound) {a : DomainCall} (hcareful : s.Careful a) :
    ∃ t, s.step a = .ok t ∧ t.Sound := by
  obtain ⟨s, ts⟩ := s
  cases a with
  | getOrCreate => exact ⟨_, rfl, h.start (.inl rfl)⟩
  | giveBack c => exact ⟨_, rfl, h.start (.inr ⟨c, rfl⟩)⟩
  | createElsewhere =>
    exact ⟨_, rfl, h.tidy, h.owned, h.nodup, fun c hc => Nat.le_succ_of_le (h.numbered c hc)⟩
  | move i choice =>
    simp only [DomainRun.step]
    cases hp : ts[i]? with
    | none => exact ⟨_, rfl, h⟩
    | some p =>
      obtain ⟨hi, rfl⟩ := List.getElem?_eq_some_iff.mp hp
      have hperm := (List.getElem_cons_eraseIdx_perm hi).symm
      have hat : CarefulAt ⟨s, ts⟩ choice ts[i] := hcareful _ hp
      obtain ⟨t, ps, hadvance, hsound⟩ := (h.perm hperm).advance_ok (hat.perm hperm)
      exact ⟨_, do_of_ok hadvance, hsound⟩

theorem owned_exclusively (calls : List DomainCall) (h : Along step Careful {} calls) :
    RunsWell step Exclusive {} calls := by
  refine (runsWell_iff_along (C := fun _ _ => True) (fun _ h => h.exclusive) ?_ ?_ sound_start h).mpr
    (along_of_forall fun _ _ _ => trivial)
  · exact fun _ _ hsound hcareful _ => hsound.step hcareful
  · exact fun _ _ _ _ hnot => absurd trivial hnot

def stallOne : List DomainCall :=
  [.getOrCreate, .move 0 {}, .move 0 {}, .move 0 {},
    .giveBack 1, .move 0 {}, .move 0 {}, .move 0 {}, .move 0 {}, .move 1 {}, .move 1 {}]

/-- A connection is created, returned and revived, and its watchdog stops. -/
theorem owned_exclusively_revived :
    RunsWell step Exclusive {} (stallOne ++ [.move 0 {}, .getOrCreate, .move 1 {}, .move 1 {},
      .move 1 {}, .move 1 {}, .move 1 {}, .move 1 {}, .move 1 {}, .move 0 {}]) :=
  owned_exclusively _ (by decide)

/-- The revival fails, and nobody stops the watchdog: it unlinks the entry that has left the
chain. -/
theorem not_owned_exclusively_failed :
    ¬ RunsWell step Exclusive {} (stallOne ++ [.getOrCreate, .move 1 {}, .move 1 {},
      .move 1 { connected := false }, .move 0 {}, .move 2 {}, .move 2 {}]) := by
  rintro ⟨⟨t, ht⟩, -⟩
  have hstop : (run step {} (stallOne ++ [.getOrCreate, .move 1 {}, .move 1 {},
      .move 1 { connected := false }, .move 0 {}, .move 2 {}, .move 2 {}])).toOption.isSome =
        false := by decide
  rw [ht] at hstop
  cases hstop

end DomainRun

end DecodingProxy.Tcp
