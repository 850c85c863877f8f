import DecodingProxy.Certs.CertManager

/-!
# What calls for one certificate agree on

An entry of either cache stays as it was first made, whatever the order of the steps: certificates
with one serial number compare as equal, and so an original is never replaced. The entries that are
loaded stand under the paths of their files and are never found.
-/

namespace DecodingProxy.Certs
open DecodingProxy.Runtime DecodingProxy.Runs

/-- The certificate was made for one with this serial number, and not before the `first`-th. -/
def MadeFor (endpoint : Endpoint) (first : ℕ) (key : Str) (forged : X509Certificate2) : Prop :=
  ∃ (n : ℕ) (original ca : X509Certificate2) (domains : List Str),
    first ≤ n ∧ original.serialNumber = key ∧
      Call.forge endpoint n original ca = .ok (forged, domains)

structure SoundManager (endpoint : Endpoint) (first : ℕ) (m : CertManager) : Prop where
  forged : ∀ (o f : X509Certificate2), AList.lookup o.serialNumber m.cacheForged = some f →
    MadeFor endpoint first o.serialNumber f
  original : ∀ o e : X509Certificate2, AList.lookup o.serialNumber m.cacheOriginal = some e →
    e.serialNumber = o.serialNumber

/-- No entry is lost or replaced. -/
structure Extends (m m' : CertManager) : Prop where
  forged : ∀ (key : Str) f, AList.lookup key m.cacheForged = some f →
    AList.lookup key m'.cacheForged = some f
  original : ∀ (key : Str) o, AList.lookup key m.cacheOriginal = some o →
    AList.lookup key m'.cacheOriginal = some o

/-- What a call has and has put into the caches. -/
def CallPoint.Sound (endpoint : Endpoint) (first : ℕ) (m : CertManager) (key : Str) :
    CallPoint → Prop
  | tryFind | forge | threw _ => True
  | containsKey f domains => MadeFor endpoint first key f ∧ (domains = [] → key ∈ m.cacheForged)
  | tryAdd f _ => MadeFor endpoint first key f
  | storeForged f | tryUpdateOrigin f | tryGetOrigin f | tryAddOrigin f =>
    MadeFor endpoint first key f ∧ key ∈ m.cacheForged
  | storeOrigin f | returned f =>
    MadeFor endpoint first key f ∧ key ∈ m.cacheForged ∧ key ∈ m.cacheOriginal
  | updateOrigin _ _ => False

structure Sound (endpoint : Endpoint) (first : ℕ) (s : CertCalls) : Prop where
  manager : SoundManager endpoint first s.manager
  generated : first ≤ s.generated
  calls : ∀ c ∈ s.calls, c.point.Sound endpoint first s.manager c.original.serialNumber

variable {endpoint : Endpoint} {first : ℕ} {m m' : CertManager}

/-! ### One step -/

theorem Extends.refl (m : CertManager) : Extends m m := ⟨fun _ _ h => h, fun _ _ h => h⟩

theorem Extends.trans {m'' : CertManager} (h : Extends m m') (h' : Extends m' m'') :
    Extends m m'' :=
  ⟨fun key f hf => h'.forged key f (h.forged key f hf),
    fun key o ho => h'.original key o (h.original key o ho)⟩

theorem Extends.mem_forged (h : Extends m m') {key : Str} (hkey : key ∈ m.cacheForged) :
    key ∈ m'.cacheForged := by
  obtain ⟨f, hf⟩ := Dictionary.mem_iff_lookup.mp hkey
  exact Dictionary.mem_iff_lookup.mpr ⟨f, h.forged key f hf⟩

theorem Extends.mem_original (h : Extends m m') {key : Str} (hkey : key ∈ m.cacheOriginal) :
    key ∈ m'.cacheOriginal := by
  obtain ⟨o, ho⟩ := Dictionary.mem_iff_lookup.mp hkey
  exact Dictionary.mem_iff_lookup.mpr ⟨o, h.original key o ho⟩

theorem CallPoint.Sound.extend (h : Extends m m') {key : Str} {point : CallPoint}
    (hpoint : point.Sound endpoint first m key) : point.Sound endpoint first m' key := by
  cases point with
  | tryFind | forge | threw _ => trivial
  | containsKey f domains => exact ⟨hpoint.1, fun hnil => h.mem_forged (hpoint.2 hnil)⟩
  | tryAdd f domains => exact hpoint
  | storeForged f | tryUpdateOrigin f | tryGetOrigin f | tryAddOrigin f =>
    exact ⟨hpoint.1, h.mem_forged hpoint.2⟩
  | storeOrigin f | returned f =>
    exact ⟨hpoint.1, h.mem_forged hpoint.2.1, h.mem_original hpoint.2.2⟩
  | updateOrigin f existed => exact hpoint

theorem lookup_insert_of_lookup {d : Dic} {key k : Str} {cert e : X509Certificate2}
    (hkey : AList.lookup key d = none) (h : AList.lookup k d = some e) :
    AList.lookup k (AList.insert key cert d) = some e := by
  have hne : k ≠ key := by
    rintro rfl
    rw [hkey] at h
    cases h
  rw [AList.lookup_insert_ne hne, h]

theorem lookup_insert_cases {d : Dic} {key k : Str} {cert e : X509Certificate2}
    (h : AList.lookup k (AList.insert key cert d) = some e) :
    (k = key ∧ e = cert) ∨ AList.lookup k d = some e := by
  by_cases hk : k = key
  · rw [hk, AList.lookup_insert] at h
    exact .inl ⟨hk, (Option.some.inj h).symm⟩
  · rw [AList.lookup_insert_ne hk] at h
    exact .inr h

theorem compare_of_key {left right : X509Certificate2} (same other : CallPoint)
    (h : left.serialNumber = right.serialNumber) : Call.compare left right same other = same := by
  unfold Call.compare Cert.compareCerts
  rw [if_pos h]
  split_ifs <;> rfl

/-- Certificates are equal or cannot be compared. -/
theorem compare_cases (left right : X509Certificate2) (same other : CallPoint) :
    Call.compare left right same other = same ∨
      ∃ fault, Call.compare left right same other = .threw fault := by
  unfold Call.compare Cert.compareCerts
  split_ifs
  · exact .inl rfl
  · exact .inl rfl
  · exact .inl rfl
  · exact .inr ⟨_, rfl⟩

theorem addDomain_ne_nil {domains domains' : List Str} {val : Str} (hne : domains ≠ [])
    (h : Cert.addDomain domains val = .ok domains') : domains' ≠ [] := by
  unfold Cert.addDomain at h
  split_ifs at h with hval
  · cases h
    exact hne
  · obtain ⟨name, -, h⟩ := do_ok_iff.mp h
    dsimp only at h
    split_ifs at h with hmem
    · cases h
      exact hne
    · cases h
      simp

/-- A fold keeps what each of its steps keeps. -/
theorem foldlM_keeps {β γ : Type} {f : β → γ → Except Fault β} {I : β → Prop}
    (hf : ∀ b c b', I b → f b c = .ok b' → I b') {l : List γ} {b b' : β} (hb : I b)
    (h : l.foldlM f b = .ok b') : I b' := by
  induction l generalizing b with
  | nil =>
    cases h
    exact hb
  | cons c l ih =>
    rw [List.foldlM_cons] at h
    obtain ⟨b₁, hb₁, h⟩ := do_ok_iff.mp h
    exact ih (hf b c b₁ hb hb₁) h

/-- The main domain is always among them. -/
theorem getDomains_ne_nil {startsWith : Str → Str → Bool} {cert : X509Certificate2}
    {domains : List Str} (h : Cert.getDomainsAsFilenames startsWith cert = .ok domains) :
    domains ≠ [] := by
  obtain ⟨mainDomain, -, h⟩ := do_ok_iff.mp h
  refine foldlM_keeps (I := fun l => l ≠ []) (fun l extension l' hl hext => ?_) (by simp) h
  unfold Cert.addDomains at hext
  split_ifs at hext with hname
  · exact foldlM_keeps (I := fun l => l ≠ []) (fun _ _ _ => addDomain_ne_nil) hl hext
  · cases hext
    exact hl

theorem forge_ok {n : ℕ} {original ca forged : X509Certificate2} {domains : List Str}
    (h : Call.forge endpoint n original ca = .ok (forged, domains)) : domains ≠ [] := by
  obtain ⟨cert, -, h⟩ := do_ok_iff.mp h
  obtain ⟨domains', hdomains, h⟩ := do_ok_iff.mp h
  cases h
  exact getDomains_ne_nil hdomains

theorem SoundManager.insertForged (h : SoundManager endpoint first m) {original f : X509Certificate2}
    (hf : MadeFor endpoint first original.serialNumber f) :
    SoundManager endpoint first { m with
      cacheForged := AList.insert original.serialNumber f m.cacheForged } where
  forged o g hg := by
    rcases lookup_insert_cases hg with ⟨hkey, rfl⟩ | hg
    · rw [hkey]
      exact hf
    · exact h.forged o g hg
  original := h.original

theorem SoundManager.insertOriginal (h : SoundManager endpoint first m)
    (original : X509Certificate2) :
    SoundManager endpoint first { m with
      cacheOriginal := AList.insert original.serialNumber original m.cacheOriginal } where
  forged := h.forged
  original o e he := by
    rcases lookup_insert_cases he with ⟨hkey, rfl⟩ | he
    · exact hkey.symm
    · exact h.original o e he

/-- A step keeps every entry, and leaves the call where it may be. -/
theorem advance_sound {c : Call} {n : ℕ} {point : CallPoint}
    (hm : SoundManager endpoint first m) (hn : first ≤ n)
    (hc : c.point.Sound endpoint first m c.original.serialNumber)
    (h : c.advance endpoint m n = .ok (m', point)) :
    Extends m m' ∧ SoundManager endpoint first m' ∧
      point.Sound endpoint first m' c.original.serialNumber := by
  unfold Call.advance at h
  cases hpoint : c.point with
  | tryFind =>
    simp only [hpoint] at h
    unfold CertManager.tryFindAppropriateCert at h
    cases hfind : AList.lookup (Cert.certToKey c.original) m.cacheForged with
    | none =>
      rw [hfind] at h
      cases h
      exact ⟨.refl _, hm, trivial⟩
    | some forged =>
      rw [hfind] at h
      cases h
      exact ⟨.refl _, hm, hm.forged _ _ hfind, Dictionary.mem_iff_lookup.mpr ⟨_, hfind⟩⟩
  | forge =>
    simp only [hpoint] at h
    cases hforge : Call.forge endpoint n c.original c.ca with
    | error fault =>
      rw [hforge] at h
      cases h
      exact ⟨.refl _, hm, trivial⟩
    | ok made =>
      obtain ⟨forged, domains⟩ := made
      rw [hforge] at h
      cases h
      exact ⟨.refl _, hm, ⟨n, c.original, c.ca, domains, hn, rfl, hforge⟩,
        fun hnil => absurd hnil (forge_ok hforge)⟩
  | containsKey forged domains =>
    rw [hpoint] at hc
    cases domains with
    | nil =>
      simp only [hpoint] at h
      cases h
      exact ⟨.refl _, hm, hc.1, hc.2 rfl⟩
    | cons domain domains =>
      simp only [hpoint] at h
      split_ifs at h with hkey
      · cases h
        exact ⟨.refl _, hm, hc.1, fun _ => hkey⟩
      · cases h
        exact ⟨.refl _, hm, hc.1⟩
  | tryAdd forged domains =>
    rw [hpoint] at hc
    simp only [hpoint] at h
    cases hfind : AList.lookup (Cert.certToKeyOf forged c.original) m.cacheForged with
    | some existed =>
      rw [hfind] at h
      cases h
      refine ⟨.refl _, hm, ?_⟩
      rcases compare_cases forged existed (.threw (.fault (exExists _)))
        (.threw (.fault (exExists _))) with heq | ⟨fault, heq⟩
      · rw [heq]
        trivial
      · rw [heq]
        trivial
    | none =>
      rw [hfind] at h
      cases h
      refine ⟨⟨fun _ _ hg => lookup_insert_of_lookup hfind hg, fun _ _ ho => ho⟩,
        hm.insertForged hc, hc, fun _ => (AList.mem_insert _).mpr (.inl rfl)⟩
  | storeForged forged =>
    rw [hpoint] at hc
    simp only [hpoint] at h
    cases h
    exact ⟨.refl _, hm, hc⟩
  | tryUpdateOrigin forged =>
    rw [hpoint] at hc
    simp only [hpoint] at h
    unfold CertManager.tryFindAppropriateCert at h
    cases hfind : AList.lookup (Cert.certToKey c.original) m.cacheOriginal with
    | none =>
      rw [hfind] at h
      cases h
      exact ⟨.refl _, hm, hc⟩
    | some existed =>
      rw [hfind] at h
      dsimp only at h
      rw [compare_of_key _ _ (hm.original _ _ hfind).symm] at h
      cases h
      exact ⟨.refl _, hm, hc.1, hc.2, Dictionary.mem_iff_lookup.mpr ⟨_, hfind⟩⟩
  | updateOrigin forged existed =>
    rw [hpoint] at hc
    exact hc.elim
  | tryGetOrigin forged =>
    rw [hpoint] at hc
    simp only [hpoint] at h
    cases hfind : AList.lookup (Cert.certToKeyOf forged c.original) m.cacheOriginal with
    | none =>
      rw [hfind] at h
      cases h
      exact ⟨.refl _, hm, hc⟩
    | some existed =>
      rw [hfind] at h
      dsimp only at h
      rw [compare_of_key _ _ (hm.original _ _ hfind)] at h
      cases h
      exact ⟨.refl _, hm, hc.1, hc.2, Dictionary.mem_iff_lookup.mpr ⟨_, hfind⟩⟩
  | tryAddOrigin forged =>
    rw [hpoint] at hc
    simp only [hpoint] at h
    split_ifs at h with hkey
    · cases h
      exact ⟨.refl _, hm, trivial⟩
    · cases h
      have hnone : AList.lookup c.original.serialNumber m.cacheOriginal = none :=
        AList.lookup_eq_none.mpr hkey
      exact ⟨⟨fun _ _ hg => hg, fun _ _ ho => lookup_insert_of_lookup hnone ho⟩,
        hm.insertOriginal _, hc.1, hc.2, (AList.mem_insert _).mpr (.inl rfl)⟩
  | storeOrigin forged =>
    rw [hpoint] at hc
    simp only [hpoint] at h
    cases h
    exact ⟨.refl _, hm, hc⟩
  | returned forged | threw fault =>
    simp only [hpoint] at h
    cases h

/-! ### Runs -/

namespace CertCalls
variable {s t : CertCalls}

theorem getElem?_set_cases {calls : List Call} {i j : ℕ} {c d : Call}
    (h : (calls.set i c)[j]? = some d) : (j = i ∧ d = c) ∨ calls[j]? = some d := by
  by_cases hij : i = j
  · subst hij
    rw [List.getElem?_set_self'] at h
    cases hold : calls[i]? with
    | none =>
      rw [hold] at h
      cases h
    | some old =>
      rw [hold] at h
      exact .inl ⟨rfl, (Option.some.inj h).symm⟩
  · rw [List.getElem?_set_ne hij] at h
    exact .inr h

/-- A step makes a call, or is taken by one call that stays the call it is. -/
theorem step_cases {action : CertAction} (h : step endpoint s action = .ok t) :
    (∃ original ca, action = .call original ca ∧
      t = { s with calls := s.calls ++ [{ original, ca }] }) ∨
    (∃ i c m point, action = .move i ∧ s.calls[i]? = some c ∧
      c.advance endpoint s.manager s.generated = .ok (m, point) ∧
      t = { manager := m
            generated := if c.point = .forge then s.generated + 1 else s.generated
            calls := s.calls.set i { c with point } }) ∨
    ∃ i c, action = .fail i ∧ s.calls[i]? = some c ∧
      (∃ f, c.point = .storeForged f ∨ c.point = .storeOrigin f) ∧
      t = { s with calls := s.calls.set i { c with point := .threw .io } } := by
  cases action with
  | call original ca =>
    cases h
    exact .inl ⟨original, ca, rfl, rfl⟩
  | move i =>
    unfold step at h
    cases hi : s.calls[i]? with
    | none =>
      simp only [hi] at h
      cases h
    | some c =>
      simp only [hi] at h
      obtain ⟨⟨m, point⟩, hadvance, h⟩ := do_ok_iff.mp h
      cases h
      exact .inr (.inl ⟨i, c, m, point, rfl, hi, hadvance, rfl⟩)
  | fail i =>
    unfold step at h
    cases hi : s.calls[i]? with
    | none =>
      simp only [hi] at h
      cases h
    | some c =>
      simp only [hi] at h
      refine .inr (.inr ⟨i, c, rfl, hi, ?_⟩)
      cases hpoint : c.point with
      | storeForged f =>
        simp only [hpoint] at h
        cases h
        exact ⟨⟨f, .inl rfl⟩, rfl⟩
      | storeOrigin f =>
        simp only [hpoint] at h
        cases h
        exact ⟨⟨f, .inr rfl⟩, rfl⟩
      | tryFind | forge | containsKey _ _ | tryAdd _ _ | tryUpdateOrigin _ | updateOrigin _ _
      | tryGetOrigin _ | tryAddOrigin _ | returned _ | threw _ =>
        simp only [hpoint] at h
        cases h

theorem sound_step (hs : Sound endpoint first s) {action : CertAction}
    (h : step endpoint s action = .ok t) :
    Extends s.manager t.manager ∧ Sound endpoint first t := by
  rcases step_cases h with ⟨original, ca, -, rfl⟩ | ⟨i, c, m, point, -, hi, hadvance, rfl⟩ |
    ⟨i, c, -, hi, -, rfl⟩
  · refine ⟨.refl _, hs.manager, hs.generated, fun c hc => ?_⟩
    rcases List.mem_append.mp hc with hc | hc
    · exact hs.calls c hc
    · rw [List.mem_singleton.mp hc]
      trivial
  · obtain ⟨hextends, hmanager, hpoint⟩ :=
      advance_sound hs.manager hs.generated (hs.calls c (List.mem_of_getElem? hi)) hadvance
    refine ⟨hextends, hmanager, ?_, fun d hd => ?_⟩
    · dsimp only
      have hgenerated := hs.generated
      split_ifs <;> omega
    · rcases List.mem_or_eq_of_mem_set hd with hd | rfl
      · exact (hs.calls d hd).extend hextends
      · exact hpoint
  · refine ⟨.refl _, hs.manager, hs.generated, fun d hd => ?_⟩
    rcases List.mem_or_eq_of_mem_set hd with hd | rfl
    · exact hs.calls d hd
    · trivial

theorem sound_run (hs : Sound endpoint first s) {actions : List CertAction}
    (h : run (step endpoint) s actions = .ok t) :
    Extends s.manager t.manager ∧ Sound endpoint first t :=
  run_history (I := fun _ t => Extends s.manager t.manager ∧ Sound endpoint first t)
    ⟨.refl _, hs⟩
    (fun _ _ _ _ ht hstep =>
      have hnext := sound_step ht.2 hstep
      ⟨ht.1.trans hnext.1, hnext.2⟩) h

end CertCalls

/-! ### What is loaded -/

/-- A serial number has no separator. -/
theorem not_separator (c : X509Certificate2) {u : UInt16} (hu : u ∈ c.serialNumber) :
    CertManager.isDirectorySeparator u = false := by
  have hhex := c.serialNumber_hex u hu
  unfold CertManager.isDirectorySeparator
  by_contra hsep
  rw [Bool.not_eq_false, Bool.or_eq_true, decide_eq_true_iff, decide_eq_true_iff] at hsep
  rcases hsep with rfl | rfl
  · exact absurd hhex (by decide)
  · exact absurd hhex (by decide)

theorem join_separator (dir name : Str) :
    ∃ u ∈ CertManager.join dir name, CertManager.isDirectorySeparator u = true := by
  unfold CertManager.join
  split_ifs with hlast
  · cases hu : dir.getLast? with
    | none =>
      rw [hu] at hlast
      cases hlast
    | some u =>
      rw [hu] at hlast
      exact ⟨u, List.mem_append_left _ (List.mem_of_getLast? hu), hlast⟩
  · exact ⟨0x5C, by simp, by decide⟩

theorem loadFiles_keys {load : Str → Except Fault X509Certificate2} {dir : Str}
    {fileNames : List Str} {cache : Dic} (h : CertManager.loadFiles load dir fileNames = .ok cache)
    {key : Str} (hkey : key ∈ cache) : key ∈ fileNames := by
  have hfold : ∀ (l : List Str) (start : Dic), l.foldlM
      (fun cache fileName => CertManager.loadCertIntoCache load dir fileName cache) start =
        .ok cache → key ∈ start ∨ key ∈ l := by
    intro l
    induction l with
    | nil =>
      rintro start ⟨⟩
      exact .inl hkey
    | cons fileName l ih =>
      intro start hl
      rw [List.foldlM_cons] at hl
      obtain ⟨next, hnext, hl⟩ := do_ok_iff.mp hl
      obtain ⟨cert, -, hnext⟩ := do_ok_iff.mp hnext
      dsimp only at hnext
      split_ifs at hnext with hmem
      cases hnext
      rcases ih _ hl with hin | hin
      · rcases (AList.mem_insert _).mp hin with rfl | hin
        · exact .inr List.mem_cons_self
        · exact .inl hin
      · exact .inr (List.mem_cons_of_mem _ hin)
  rcases hfold fileNames ∅ h with hnone | hin
  · exact absurd hnone (AList.notMem_empty key)
  · exact hin

/-- No certificate is found under what the constructor has loaded. -/
theorem loaded_missed {load : Str → Except Fault X509Certificate2} {dir : Str}
    {names fileNames : List Str} {cache : Dic} (hfiles : CertManager.getFiles dir names = .ok fileNames)
    (h : CertManager.loadFiles load dir fileNames = .ok cache) (origin : X509Certificate2) :
    CertManager.tryFindAppropriateCert origin cache = none := by
  refine AList.lookup_eq_none.mpr fun hkey => ?_
  have hpath := loadFiles_keys h hkey
  unfold CertManager.getFiles at hfiles
  split_ifs at hfiles with hdir
  cases hfiles
  obtain ⟨name, -, hname⟩ := List.mem_map.mp hpath
  obtain ⟨u, hu, hsep⟩ := join_separator dir name
  rw [hname] at hu
  rw [not_separator origin hu] at hsep
  cases hsep

section Start
variable {load : Str → Except Fault X509Certificate2} {pathForged pathOriginal : Str}
  {namesForged namesOriginal : List Str}

theorem loadCache_missed
    (h : CertManager.loadCache load pathForged pathOriginal namesForged namesOriginal = .ok m)
    (origin : X509Certificate2) :
    CertManager.tryFindAppropriateCert origin m.cacheForged = none ∧
      CertManager.tryFindAppropriateCert origin m.cacheOriginal = none := by
  obtain ⟨fileNamesForged, hnames, h⟩ := do_ok_iff.mp h
  obtain ⟨cacheForged, hforged, h⟩ := do_ok_iff.mp h
  obtain ⟨fileNamesOriginal, hnames', h⟩ := do_ok_iff.mp h
  obtain ⟨cacheOriginal, horiginal, h⟩ := do_ok_iff.mp h
  cases h
  exact ⟨loaded_missed hnames hforged origin, loaded_missed hnames' horiginal origin⟩

theorem sound_start
    (h : CertManager.loadCache load pathForged pathOriginal namesForged namesOriginal = .ok m)
    (endpoint : Endpoint) (n : ℕ) : Sound endpoint n { manager := m, generated := n } where
  manager :=
    { forged := fun o f hf => by
        have hnone := (loadCache_missed h o).1
        exact absurd (hnone.symm.trans hf) (by simp)
      original := fun o e he => by
        have hnone := (loadCache_missed h o).2
        exact absurd (hnone.symm.trans he) (by simp) }
  generated := le_refl n
  calls c hc := absurd hc List.not_mem_nil

end Start

/-! ### Calls after a call -/

/-- What is in the caches for a serial number, and where the calls from `start` on are. -/
structure Settled (start : ℕ) (key : Str) (forged : X509Certificate2) (s : CertCalls) : Prop where
  start_le : start ≤ s.calls.length
  lookup : AList.lookup key s.manager.cacheForged = some forged
  mem : key ∈ s.manager.cacheOriginal
  late : ∀ i c, start ≤ i → s.calls[i]? = some c → c.original.serialNumber = key →
    c.point = .tryFind ∨ c.point = .tryUpdateOrigin forged ∨ c.point = .returned forged

/-- A call for a certificate that is in both caches goes straight to its end. -/
theorem advance_settled {c : Call} {n : ℕ} {point : CallPoint} {forged : X509Certificate2}
    (hm : SoundManager endpoint first m)
    (hforged : AList.lookup c.original.serialNumber m.cacheForged = some forged)
    (horiginal : c.original.serialNumber ∈ m.cacheOriginal)
    (hc : c.point = .tryFind ∨ c.point = .tryUpdateOrigin forged ∨ c.point = .returned forged)
    (h : c.advance endpoint m n = .ok (m', point)) :
    point = .tryUpdateOrigin forged ∨ point = .returned forged := by
  unfold Call.advance at h
  rcases hc with hpoint | hpoint | hpoint
  · have hfind : CertManager.tryFindAppropriateCert c.original m.cacheForged = some forged :=
      hforged
    simp only [hpoint, hfind] at h
    cases h
    exact .inl rfl
  · obtain ⟨existed, hexisted⟩ := Dictionary.mem_iff_lookup.mp horiginal
    have hfind : CertManager.tryFindAppropriateCert c.original m.cacheOriginal = some existed :=
      hexisted
    simp only [hpoint, hfind] at h
    rw [compare_of_key _ _ (hm.original _ _ hexisted).symm] at h
    cases h
    exact .inr rfl
  · simp only [hpoint] at h
    cases h

namespace CertCalls
variable {s t : CertCalls}

theorem settled_step {start : ℕ} {key : Str} {forged : X509Certificate2}
    (hs : Sound endpoint first s) (hsettled : Settled start key forged s) {action : CertAction}
    (h : step endpoint s action = .ok t) : Settled start key forged t := by
  have hextends := (sound_step hs h).1
  have hcaches := And.intro (hextends.forged _ _ hsettled.lookup)
    (hextends.mem_original hsettled.mem)
  have hstart := hsettled.start_le
  rcases step_cases h with ⟨original, ca, -, rfl⟩ | ⟨i, c, m, point, -, hi, hadvance, rfl⟩ |
    ⟨i, c, -, hi, ⟨f, hpoint⟩, rfl⟩
  · refine ⟨by simp; omega, hcaches.1, hcaches.2, fun j d hj hd hkey => ?_⟩
    rw [List.getElem?_append] at hd
    split_ifs at hd with hlt
    · exact hsettled.late j d hj hd hkey
    · rw [List.mem_singleton.mp (List.mem_of_getElem? hd)]
      exact .inl rfl
  · refine ⟨by simpa using hstart, hcaches.1, hcaches.2, fun j d hj hd hkey => ?_⟩
    rcases getElem?_set_cases hd with ⟨rfl, rfl⟩ | hd
    · subst hkey
      exact .inr (advance_settled (c := c) hs.manager hsettled.lookup hsettled.mem
        (hsettled.late j c hj hi rfl) hadvance)
    · exact hsettled.late j d hj hd hkey
  · refine ⟨by simpa using hstart, hcaches.1, hcaches.2, fun j d hj hd hkey => ?_⟩
    rcases getElem?_set_cases hd with ⟨rfl, rfl⟩ | hd
    · -- it writes no file
      rcases hsettled.late j c hj hi hkey with hlate | hlate | hlate <;>
        rcases hpoint with hpoint | hpoint <;> cases hlate.symm.trans hpoint
    · exact hsettled.late j d hj hd hkey

variable {load : Str → Except Fault X509Certificate2} {pathForged pathOriginal : Str}
  {namesForged namesOriginal : List Str} {n : ℕ} {before after : List CertAction}

/-- Once one call has returned, all later ones for its serial number are given one certificate, made
for this serial number since the start; none of them fails, makes a certificate or writes a file. -/
theorem late_call
    (hload : CertManager.loadCache load pathForged pathOriginal namesForged namesOriginal = .ok m)
    (hs : run (step endpoint) { manager := m, generated := n } before = .ok s)
    (ht : run (step endpoint) s after = .ok t) {early : Call} (hearly : early ∈ s.calls)
    {f : X509Certificate2} (hreturned : early.point = .returned f) :
    ∃ forged, MadeFor endpoint n early.original.serialNumber forged ∧
      ∀ late ∈ t.calls.drop s.calls.length,
        late.original.serialNumber = early.original.serialNumber →
          late.point = .tryFind ∨ late.point = .tryUpdateOrigin forged ∨
            late.point = .returned forged := by
  obtain ⟨-, hsound⟩ := sound_run (sound_start hload endpoint n) hs
  have hpoint := hsound.calls early hearly
  rw [hreturned] at hpoint
  obtain ⟨-, hforged, horiginal⟩ := hpoint
  obtain ⟨forged, hforged⟩ := Dictionary.mem_iff_lookup.mp hforged
  have hsettled : Settled s.calls.length early.original.serialNumber forged s :=
    { start_le := le_refl _
      lookup := hforged
      mem := horiginal
      late := fun i c hi hc _ => absurd (List.getElem?_eq_some_iff.mp hc).1 (by omega) }
  have hrun := run_history (I := fun _ t => Sound endpoint n t ∧
      Settled s.calls.length early.original.serialNumber forged t) ⟨hsound, hsettled⟩
    (fun _ _ _ _ hu hstep => ⟨(sound_step hu.1 hstep).2, settled_step hu.1 hu.2 hstep⟩) ht
  refine ⟨forged, hsound.manager.forged _ _ hforged, fun late hlate hkey => ?_⟩
  obtain ⟨i, hi⟩ := List.getElem?_of_mem hlate
  rw [List.getElem?_drop] at hi
  exact hrun.2.late _ late (by omega) hi hkey

/-- The serial number of a certificate that is made is the number of the certificate. -/
def sampleEndpoint : Endpoint where
  startsWith s start := start.isPrefixOf s
  generateCertEndpoint n donor _ :=
    .ok { donor with
      serialNumber := List.replicate n 0x31
      serialNumber_hex := fun _ hc => List.eq_of_mem_replicate hc ▸ rfl }

/-- The certificate of `CN=a`, with the serial number `0A`. -/
def sampleOrigin : X509Certificate2 where
  object := 100
  serialNumber := ascii "0A"
  thumbprint := ascii "0B"
  issuer := []
  subjectName := ascii "CN=a"
  extensions := []
  serialNumber_hex := List.all_eq_true.mp (by decide)

def sampleForged : X509Certificate2 :=
  { sampleOrigin with object := 0, serialNumber := [], serialNumber_hex := by simp }

theorem sampleCache : CertManager.loadCache (fun _ => .error (.raised .cryptographic)) (ascii "c")
    (ascii "c") [] [] = .ok {} := rfl

def firstCall : List CertAction :=
  .call sampleOrigin sampleOrigin :: List.replicate 10 (.move 0)

def secondCall : List CertAction := [.call sampleOrigin sampleOrigin, .move 1, .move 1]

/-- Two calls, one behind the other. -/
theorem late_call_second : ∃ (s t : CertCalls) (forged : X509Certificate2),
    run (step sampleEndpoint) {} firstCall = .ok s ∧
      run (step sampleEndpoint) s secondCall = .ok t ∧ t.calls.length = 2 ∧
      MadeFor sampleEndpoint 0 sampleOrigin.serialNumber forged ∧
      ∀ late ∈ t.calls.drop s.calls.length,
        late.original.serialNumber = sampleOrigin.serialNumber →
          late.point = .tryFind ∨ late.point = .tryUpdateOrigin forged ∨
            late.point = .returned forged := by
  obtain ⟨t, ht, hlength⟩ := ok_of_toOption_map
    (x := run (step sampleEndpoint) {} (firstCall ++ secondCall))
    (f := fun t => t.calls.length) (c := 2) (by decide)
  obtain ⟨s, hs, hrest⟩ := run_append_ok_iff.mp ht
  obtain ⟨s', hs', hcall⟩ := ok_of_toOption_map
    (x := run (step sampleEndpoint) {} firstCall) (f := fun s => s.calls)
    (c := [⟨sampleOrigin, sampleOrigin, .returned sampleForged⟩]) (by decide)
  obtain rfl : s = s' := Except.ok.inj (hs.symm.trans hs')
  have hearly : (⟨sampleOrigin, sampleOrigin, .returned sampleForged⟩ : Call) ∈ s.calls := by
    rw [hcall]
    exact List.mem_singleton_self _
  obtain ⟨forged, hmade, hlate⟩ := late_call sampleCache hs hrest hearly rfl
  exact ⟨s, t, forged, hs, hrest, hlength, hmade, hlate⟩

/-- An entry of a cache is there for good; in particular no original takes the place of another one
with the same serial number, and no call comes to `OriginUpdateAsync`. -/
theorem entries_kept
    (hload : CertManager.loadCache load pathForged pathOriginal namesForged namesOriginal = .ok m)
    (hs : run (step endpoint) { manager := m, generated := n } before = .ok s)
    (ht : run (step endpoint) s after = .ok t) :
    Extends s.manager t.manager ∧
      ∀ c ∈ t.calls, ∀ f existed, c.point ≠ .updateOrigin f existed := by
  obtain ⟨-, hsound⟩ := sound_run (sound_start hload endpoint n) hs
  obtain ⟨hextends, hsound'⟩ := sound_run hsound ht
  refine ⟨hextends, fun c hc f existed hpoint => ?_⟩
  have hsoundc := hsound'.calls c hc
  rw [hpoint] at hsoundc
  exact hsoundc

/-- Over the second of two calls. -/
theorem entries_kept_second : ∃ s t : CertCalls,
    run (step sampleEndpoint) {} firstCall = .ok s ∧
      run (step sampleEndpoint) s secondCall = .ok t ∧ Extends s.manager t.manager := by
  obtain ⟨t, ht, -⟩ := ok_of_toOption_map
    (x := run (step sampleEndpoint) {} (firstCall ++ secondCall))
    (f := fun t => t.calls.length) (c := 2) (by decide)
  obtain ⟨s, hs, hrest⟩ := run_append_ok_iff.mp ht
  exact ⟨s, t, hs, hrest, (entries_kept sampleCache hs hrest).1⟩

end CertCalls

end DecodingProxy.Certs
