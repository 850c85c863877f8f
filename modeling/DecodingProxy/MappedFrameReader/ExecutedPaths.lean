import DecodingProxy.Lib.Runs
import DecodingProxy.MappedFrameReader.Reader

/-!
# The nodes that one reading of a chain executes

A reading takes one case of every switch it comes to. What the importer builds has, along
every such path, the result of an item or frame right behind its last node, and every path of
an item or frame at most once.
-/

namespace DecodingProxy.MappedFrameReader
open DecodingProxy.Runs DecodingProxy.Runtime

mutual

/-- The nodes from the first one of a chain to its end. A `NodeSwitch` leaves behind what a
`NodeSwitchItem` does, and stands in the path as one. -/
inductive Path : Chain → List Node → Prop
  | null : Path .null []
  | node (n : Node) {tail : Chain} {ns : List Node} : Path tail ns → Path (.node n tail) (n :: ns)
  | switch {valuePromise : String} {cases : Cases} {tail : Chain} {ms ns : List Node} :
    CasePath cases ms → Path tail ns →
      Path (.switch valuePromise cases tail) (.switchItem :: (ms ++ ns))

inductive CasePath : Cases → List Node → Prop
  | here {data : Option UInt8} {chain : Chain} {rest : Cases} {ns : List Node} :
    Path chain ns → CasePath (.case data chain rest) ns
  | there {data : Option UInt8} {chain : Chain} {rest : Cases} {ns : List Node} :
    CasePath rest ns → CasePath (.case data chain rest) ns

end

theorem Path.of_append {c d : Chain} {ns : List Node} (h : Path (c.append d) ns) :
    ∃ ms ks, ns = ms ++ ks ∧ Path c ms ∧ Path d ks := by
  match c with
  | .null => exact ⟨[], ns, rfl, .null, h⟩
  | .node n tail =>
    cases h with
    | node _ htail =>
      obtain ⟨ms, ks, rfl, hc, hd⟩ := Path.of_append htail
      exact ⟨n :: ms, ks, rfl, .node n hc, hd⟩
  | .switch valuePromise cases tail =>
    cases h with
    | switch hcase htail =>
      obtain ⟨ms, ks, rfl, hc, hd⟩ := Path.of_append htail
      exact ⟨_, ks, by simp, .switch hcase hc, hd⟩
termination_by structural c

theorem Path.of_nodes {ms ns : List Node} {c : Chain} (h : Path (.ofNodes ms c) ns) :
    ∃ ks, ns = ms ++ ks ∧ Path c ks := by
  induction ms generalizing ns with
  | nil => exact ⟨ns, rfl, h⟩
  | cons m ms ih =>
    cases h with
    | node _ htail =>
      obtain ⟨ks, rfl, hc⟩ := ih htail
      exact ⟨ks, rfl, hc⟩

/-! ### Reading along a path -/

mutual

theorem Chain.exists_path {debug : Bool} {data : List UInt8} {s t : Reader} :
    (c : Chain) → c.execute debug data s = .ok t →
      ∃ ns, Path c ns ∧ run (executeNode debug data) s ns = .ok t
  | .null, h => ⟨[], .null, h⟩
  | .node n tail, h => by
    obtain ⟨m, hm, htail⟩ := do_ok_iff.mp h
    obtain ⟨ns, hpath, hrun⟩ := Chain.exists_path tail htail
    exact ⟨n :: ns, .node n hpath, run_cons_ok_iff.mpr ⟨m, hm, hrun⟩⟩
  | .switch valuePromise cases tail, h => by
    obtain ⟨value, -, h⟩ := do_ok_iff.mp h
    obtain ⟨m, hm, htail⟩ := do_ok_iff.mp h
    obtain ⟨ns, hpath, hrun⟩ := Chain.exists_path tail htail
    obtain ⟨ms, hcase, htaken⟩ : ∃ ms, CasePath cases ms ∧
        run (executeNode debug data) (s.push .other) ms = .ok m := by
      unfold orDefault at hm
      split at hm
      · rename_i taken _ hmatch
        exact Cases.exists_path_match cases (hm ▸ hmatch)
      · rename_i taken _ hdefault
        exact Cases.exists_path_default cases (hm ▸ hdefault)
      · cases hm
    refine ⟨.switchItem :: (ms ++ ns), .switch hcase hpath, run_cons_ok_iff.mpr ⟨_, rfl, ?_⟩⟩
    exact run_append_ok_iff.mpr ⟨m, htaken, hrun⟩

theorem Cases.exists_path_match {debug : Bool} {data value : List UInt8} {s t : Reader} :
    (cases : Cases) → cases.executeMatch debug data value s = some (.ok t) →
      ∃ ns, CasePath cases ns ∧ run (executeNode debug data) s ns = .ok t
  | .nil, h => by cases h
  | .case caseData chain rest, h => by
    unfold Cases.executeMatch at h
    split_ifs at h with heq
    · obtain ⟨ns, hpath, hrun⟩ := Chain.exists_path chain (Option.some.inj h)
      exact ⟨ns, .here hpath, hrun⟩
    · obtain ⟨ns, hpath, hrun⟩ := Cases.exists_path_match rest h
      exact ⟨ns, .there hpath, hrun⟩

theorem Cases.exists_path_default {debug : Bool} {data : List UInt8} {s t : Reader} :
    (cases : Cases) → cases.executeDefault debug data s = some (.ok t) →
      ∃ ns, CasePath cases ns ∧ run (executeNode debug data) s ns = .ok t
  | .nil, h => by cases h
  | .case none chain rest, h => by
    obtain ⟨ns, hpath, hrun⟩ := Chain.exists_path chain (Option.some.inj h)
    exact ⟨ns, .here hpath, hrun⟩
  | .case (some _) chain rest, h => by
    obtain ⟨ns, hpath, hrun⟩ := Cases.exists_path_default rest h
    exact ⟨ns, .there hpath, hrun⟩

end

/-! ### Paths through what the importer builds -/

def Node.isResultFromTo : Node → Bool
  | .result _ .fromTo => true
  | _ => false

def Node.beginOf : Node → Option String
  | .itemBegin path | .frameBegin path => some path
  | _ => none

def Node.endOf : Node → Option String
  | .itemEnd path | .frameEnd path => some path
  | _ => none

/-- Every result `FromTo` is right behind the last node of its path. -/
inductive Bracketed : List Node → Prop
  | nil : Bracketed []
  | plain {n : Node} {ns : List Node} : n.isResultFromTo = false → Bracketed ns →
    Bracketed (n :: ns)
  | closed {n : Node} {path : String} {ns : List Node} : n.endOf = some path → Bracketed ns →
    Bracketed (n :: .result path .fromTo :: ns)

theorem Bracketed.append {ms ns : List Node} (hm : Bracketed ms) (hn : Bracketed ns) :
    Bracketed (ms ++ ns) := by
  induction hm with
  | nil => exact hn
  | plain hplain _ ih => exact .plain hplain ih
  | closed hend _ ih => exact .closed hend ih

theorem Bracketed.of_plain {ns : List Node} (h : ∀ n ∈ ns, n.isResultFromTo = false) :
    Bracketed ns := by
  induction ns with
  | nil => exact .nil
  | cons n ns ih =>
    exact .plain (h n List.mem_cons_self) (ih fun m hm => h m (List.mem_cons_of_mem _ hm))

/-! ### Paths of variables -/

namespace SchemeImporter

def Knows (s : SchemeImporter) (path : String) : Prop := path ∈ s.tableOfVariables.map (·.1)

def Extends (s t : SchemeImporter) : Prop := ∀ path, s.Knows path → t.Knows path

theorem Extends.refl {s : SchemeImporter} : Extends s s := fun _ h => h

theorem Extends.trans {s t u : SchemeImporter} (h : Extends s t) (h' : Extends t u) :
    Extends s u :=
  fun path hp => h' path (h path hp)

/-- The paths are different, and got their variables between `s` and `t`. -/
structure New (s t : SchemeImporter) (paths : List String) : Prop where
  nodup : paths.Nodup
  unknown : ∀ path ∈ paths, ¬ s.Knows path
  known : ∀ path ∈ paths, t.Knows path

theorem New.nil {s t : SchemeImporter} : New s t [] := ⟨.nil, by simp, by simp⟩

theorem New.append {s t u : SchemeImporter} {ps qs : List String} (hst : Extends s t)
    (htu : Extends t u) (hp : New s t ps) (hq : New t u qs) : New s u (ps ++ qs) := by
  refine ⟨List.nodup_append.mpr ⟨hp.nodup, hq.nodup, ?_⟩, ?_, ?_⟩
  · rintro path hpath _ hother rfl
    exact hq.unknown path hother (hp.known path hpath)
  · intro path hpath
    rcases List.mem_append.mp hpath with h | h
    · exact hp.unknown path h
    · exact fun hs => hq.unknown path h (hst path hs)
  · intro path hpath
    rcases List.mem_append.mp hpath with h | h
    · exact htu path (hp.known path h)
    · exact hq.known path h

theorem New.perm {s t : SchemeImporter} {ps qs : List String} (h : New s t ps)
    (hperm : ps.Perm qs) : New s t qs :=
  ⟨hperm.nodup_iff.mp h.nodup, fun path hp => h.unknown path (hperm.mem_iff.mpr hp),
    fun path hp => h.known path (hperm.mem_iff.mpr hp)⟩

variable {env : Environment} {s t : SchemeImporter} {path : String}

theorem createVariable_new {type : DefinedType} (h : s.createVariable path type = .ok t) :
    Extends s t ∧ New s t [path] := by
  unfold createVariable at h
  split_ifs at h with hknown
  cases h
  refine ⟨fun p hp => ?_, by simp, ?_, ?_⟩
  · simp only [Knows, List.map_append, List.mem_append] at hp ⊢
    exact .inl hp
  · rintro p hp hs
    obtain rfl := List.mem_singleton.mp hp
    simp [Knows] at hs
    simp [hs] at hknown
  · simp [Knows]

theorem createVariable_after {r : DefinedType × SchemeImporter} {type : DefinedType}
    (hnew : s.createNew path = .ok r) (h : r.2.createVariable path type = .ok t) :
    Extends s t ∧ New s t [path] := by
  have hsame : ∀ p, s.Knows p ↔ r.2.Knows p := by
    unfold createNew at hnew
    split_ifs at hnew
    cases hnew
    exact fun p => Iff.rfl
  obtain ⟨hext, hpath⟩ := createVariable_new h
  exact ⟨fun p hp => hext p ((hsame p).mp hp),
    hpath.nodup, fun p hp hs => hpath.unknown p hp ((hsame p).mp hs), hpath.known⟩

/-- What a path through nodes built between `s` and `t` is like. -/
structure Brings (s t : SchemeImporter) (ns : List Node) : Prop where
  bracketed : Bracketed ns
  begins : New s t (ns.filterMap Node.beginOf)
  ends : New s t (ns.filterMap Node.endOf)

theorem Brings.append {u : SchemeImporter} {ms ns : List Node} (hst : Extends s t)
    (htu : Extends t u) (hm : Brings s t ms) (hn : Brings t u ns) : Brings s u (ms ++ ns) := by
  refine ⟨hm.bracketed.append hn.bracketed, ?_, ?_⟩
  · rw [List.filterMap_append]
    exact hm.begins.append hst htu hn.begins
  · rw [List.filterMap_append]
    exact hm.ends.append hst htu hn.ends

theorem Brings.of_inner {ns : List Node}
    (h : ∀ n ∈ ns, n.beginOf = none ∧ n.endOf = none ∧ n.isResultFromTo = false) :
    Brings s t ns := by
  have hbegins : ns.filterMap Node.beginOf = [] :=
    List.filterMap_eq_nil_iff.mpr fun n hn => (h n hn).1
  have hends : ns.filterMap Node.endOf = [] :=
    List.filterMap_eq_nil_iff.mpr fun n hn => (h n hn).2.1
  refine ⟨.of_plain fun n hn => (h n hn).2.2, ?_, ?_⟩
  · rw [hbegins]
    exact .nil
  · rw [hends]
    exact .nil

theorem Brings.enclose {u : SchemeImporter} {first last : Node} {ns : List Node}
    (hfirst : first.beginOf = some path) (hfirstEnd : first.endOf = none)
    (hfirstPlain : first.isResultFromTo = false) (hlast : last.endOf = some path)
    (hlastBegin : last.beginOf = none) (hst : Extends s t) (htu : Extends t u)
    (hpath : New s t [path]) (hbody : Brings t u ns) :
    Brings s u (first :: (ns ++ [last, .result path .fromTo])) := by
  refine ⟨.plain hfirstPlain (hbody.bracketed.append (.closed hlast .nil)), ?_, ?_⟩
  · have hlist : (first :: (ns ++ [last, .result path .fromTo])).filterMap Node.beginOf =
        [path] ++ ns.filterMap Node.beginOf := by
      rw [List.filterMap_cons_some hfirst, List.filterMap_append,
        List.filterMap_cons_none hlastBegin]
      simp [Node.beginOf]
    rw [hlist]
    exact hpath.append hst htu hbody.begins
  · have hlist : (first :: (ns ++ [last, .result path .fromTo])).filterMap Node.endOf =
        ns.filterMap Node.endOf ++ [path] := by
      rw [List.filterMap_cons_none hfirstEnd, List.filterMap_append,
        List.filterMap_cons_some hlast]
      simp [Node.endOf]
    rw [hlist]
    exact (hpath.append hst htu hbody.ends).perm List.perm_append_comm

/-! ### What the importer builds -/

theorem parseLinks_inner {links : List String} {ns : List Node}
    (h : s.parseLinks links = .ok ns) :
    ∀ n ∈ ns, n.beginOf = none ∧ n.endOf = none ∧ n.isResultFromTo = false := by
  induction links generalizing ns with
  | nil =>
    cases h
    simp
  | cons link links ih =>
    obtain ⟨_, -, h⟩ := do_ok_iff.mp h
    obtain ⟨nodes, hnodes, h⟩ := do_ok_iff.mp h
    cases h
    rintro n (_ | ⟨_, hn⟩)
    · exact ⟨rfl, rfl, rfl⟩
    · exact ih hnodes n hn

theorem parseReading_inner {reading : Reading} {r : List Node × ResultMode}
    (h : parseReading env path reading = .ok r) :
    ∀ n ∈ r.1 ++ [.result path r.2],
      n.beginOf = none ∧ n.endOf = none ∧ n.isResultFromTo = false := by
  cases reading with
  | fixed length | closedBy bytes =>
    cases h
    simp [Node.beginOf, Node.endOf, Node.isResultFromTo]
  | func id =>
    obtain ⟨func, -, rfl⟩ := map_ok_iff.mp h
    simp [Node.beginOf, Node.endOf, Node.isResultFromTo]
  | unspecified =>
    unfold parseReading at h
    split_ifs at h
    cases h
    simp [Node.beginOf, Node.endOf, Node.isResultFromTo]

theorem parseFieldTyped_brings {field : FieldTyped} {r : List Node × SchemeImporter}
    (h : s.parseFieldTyped env field = .ok r) : Extends s r.2 ∧ Brings s r.2 r.1 := by
  obtain ⟨type, -, h⟩ := do_ok_iff.mp h
  obtain ⟨s', hvariable, h⟩ := do_ok_iff.mp h
  obtain ⟨links, hlinks, h⟩ := do_ok_iff.mp h
  obtain ⟨reading, hreading, h⟩ := do_ok_iff.mp h
  cases h
  refine ⟨(createVariable_new hvariable).1, .of_inner ?_⟩
  rw [List.append_assoc]
  rintro n (_ | ⟨_, hn⟩)
  · exact ⟨rfl, rfl, rfl⟩
  · rcases List.mem_append.mp hn with hn | hn
    · exact parseLinks_inner hlinks n hn
    · exact parseReading_inner hreading n hn

theorem createSource_extends {field : FieldVector} {type : DefinedType}
    (h : s.createSource field type = .ok t) : Extends s t := by
  unfold createSource at h
  split_ifs at h
  · exact (createVariable_new h).1
  · cases h
    exact .refl

theorem parseVector_brings {field : FieldVector} {r : List Node × SchemeImporter}
    (h : s.parseVector env field = .ok r) : Extends s r.2 ∧ Brings s r.2 r.1 := by
  obtain ⟨type, -, h⟩ := do_ok_iff.mp h
  obtain ⟨s', hsource, h⟩ := do_ok_iff.mp h
  obtain ⟨links, hlinks, h⟩ := do_ok_iff.mp h
  obtain ⟨s'', hvariable, h⟩ := do_ok_iff.mp h
  obtain ⟨mode, -, h⟩ := do_ok_iff.mp h
  cases h
  refine ⟨(createSource_extends hsource).trans (createVariable_new hvariable).1, .of_inner ?_⟩
  rintro n (_ | ⟨_, _ | ⟨_, hn⟩⟩)
  · exact ⟨rfl, rfl, rfl⟩
  · exact ⟨rfl, rfl, rfl⟩
  · exact parseLinks_inner hlinks n hn

mutual

theorem parseFields_brings {s t : SchemeImporter} {c : Chain} :
    (fields : Fields) → parseFields env fields s = .ok (c, t) →
      Extends s t ∧ ∀ ns, Path c ns → Brings s t ns
  | .done, h => by
    cases h
    refine ⟨.refl, fun ns hpath => ?_⟩
    cases hpath
    exact .of_inner (by simp)
  | .typed field rest, h => by
    obtain ⟨r, hr, h⟩ := do_ok_iff.mp h
    obtain ⟨⟨tail, u⟩, htail, h⟩ := do_ok_iff.mp h
    cases h
    obtain ⟨hext, hbrings⟩ := parseFieldTyped_brings hr
    obtain ⟨hextTail, hpaths⟩ := parseFields_brings rest htail
    refine ⟨hext.trans hextTail, fun ns hpath => ?_⟩
    obtain ⟨ks, rfl, hks⟩ := hpath.of_nodes
    exact hbrings.append hext hextTail (hpaths ks hks)
  | .vector field rest, h => by
    obtain ⟨r, hr, h⟩ := do_ok_iff.mp h
    obtain ⟨⟨tail, u⟩, htail, h⟩ := do_ok_iff.mp h
    cases h
    obtain ⟨hext, hbrings⟩ := parseVector_brings hr
    obtain ⟨hextTail, hpaths⟩ := parseFields_brings rest htail
    refine ⟨hext.trans hextTail, fun ns hpath => ?_⟩
    obtain ⟨ks, rfl, hks⟩ := hpath.of_nodes
    exact hbrings.append hext hextTail (hpaths ks hks)
  | .item path links body rest, h => by
    obtain ⟨linkNodes, hlinks, h⟩ := do_ok_iff.mp h
    obtain ⟨type, htype, h⟩ := do_ok_iff.mp h
    obtain ⟨s', hvariable, h⟩ := do_ok_iff.mp h
    obtain ⟨⟨chain, u⟩, hchain, h⟩ := do_ok_iff.mp h
    obtain ⟨⟨tail, v⟩, htail, h⟩ := do_ok_iff.mp h
    cases h
    obtain ⟨hextStart, hnewStart⟩ := createVariable_after htype hvariable
    obtain ⟨hextBody, hbody⟩ := parseFields_brings body hchain
    obtain ⟨hextTail, hpaths⟩ := parseFields_brings rest htail
    have hextItem := hextStart.trans hextBody
    refine ⟨hextItem.trans hextTail, fun ns hpath => ?_⟩
    obtain ⟨ks, rfl, hks⟩ := hpath.of_nodes
    obtain ⟨bodyPath, afterBody, rfl, hbodyPath, hafter⟩ := hks.of_append
    obtain ⟨tailPath, rfl, htailPath⟩ := hafter.of_nodes
    have hitem : Brings s u
        (.itemBegin path :: (bodyPath ++ [.itemEnd path, .result path .fromTo])) :=
      .enclose rfl rfl rfl rfl rfl hextStart hextBody hnewStart (hbody bodyPath hbodyPath)
    have hlinked : Brings s s linkNodes := .of_inner (parseLinks_inner hlinks)
    have hall := (hlinked.append .refl hextItem hitem).append hextItem hextTail
      (hpaths tailPath htailPath)
    simpa using hall
  | .switch path cases rest, h => by
    obtain ⟨type, -, h⟩ := do_ok_iff.mp h
    obtain ⟨⟨parsed, u⟩, hparsed, h⟩ := do_ok_iff.mp h
    obtain ⟨⟨tail, v⟩, htail, h⟩ := do_ok_iff.mp h
    cases h
    obtain ⟨hextCases, hcases⟩ := parseCases_brings cases hparsed
    obtain ⟨hextTail, hpaths⟩ := parseFields_brings rest htail
    refine ⟨hextCases.trans hextTail, fun ns hpath => ?_⟩
    cases hpath with
    | switch hcase hrest =>
      cases hrest with
      | node _ htailPath =>
        rename_i casePath tailPath
        have hbegin : Brings s s [.switchItem] :=
          .of_inner (by simp [Node.beginOf, Node.endOf, Node.isResultFromTo])
        have hend : Brings u u [.switchEnd path] :=
          .of_inner (by simp [Node.beginOf, Node.endOf, Node.isResultFromTo])
        have hall := (hbegin.append .refl hextCases (hcases casePath hcase)).append hextCases
          hextTail (hend.append .refl hextTail (hpaths tailPath htailPath))
        simpa using hall

theorem parseCases_brings {type : DefinedType} {hasDefault : Bool} {s t : SchemeImporter}
    {parsed : Cases} : (cases : FieldCases) →
      parseCases env type hasDefault cases s = .ok (parsed, t) →
        Extends s t ∧ ∀ ns, CasePath parsed ns → Brings s t ns
  | .done, h => by
    cases h
    exact ⟨.refl, nofun⟩
  | .case value body rest, h => by
    obtain ⟨hasDefault', -, h⟩ := do_ok_iff.mp h
    obtain ⟨⟨chain, u⟩, hchain, h⟩ := do_ok_iff.mp h
    obtain ⟨⟨others, v⟩, hothers, h⟩ := do_ok_iff.mp h
    cases h
    obtain ⟨hextBody, hbody⟩ := parseFields_brings body hchain
    obtain ⟨hextRest, hrest⟩ := parseCases_brings rest hothers
    refine ⟨hextBody.trans hextRest, fun ns hpath => ?_⟩
    cases hpath with
    | here hcase =>
      cases hcase with
      | node _ hcase =>
        obtain ⟨bodyPath, endPath, rfl, hbodyPath, hend⟩ := hcase.of_append
        obtain ⟨ks, rfl, hks⟩ :=
          (show Path (.ofNodes [.switchItemEnd] .null) endPath from hend).of_nodes
        cases hks
        have hbegin : Brings s s [.switchItem] :=
          .of_inner (by simp [Node.beginOf, Node.endOf, Node.isResultFromTo])
        have hlast : Brings u v [.switchItemEnd] :=
          .of_inner (by simp [Node.beginOf, Node.endOf, Node.isResultFromTo])
        have hall := (hbegin.append .refl hextBody (hbody bodyPath hbodyPath)).append hextBody
          hextRest hlast
        simpa using hall
    | there hcase =>
      have hskipped : Brings s u [] := .of_inner (by simp)
      simpa using hskipped.append hextBody hextRest (hrest ns hcase)

end

theorem parseFrame_brings {links : List String} {body : Fields} {r : Chain × SchemeImporter}
    (h : s.parseFrame env path links body = .ok r) :
    Extends s r.2 ∧ ∀ ns, Path r.1 ns → Brings s r.2 ns := by
  obtain ⟨linkNodes, hlinks, h⟩ := do_ok_iff.mp h
  obtain ⟨type, htype, h⟩ := do_ok_iff.mp h
  obtain ⟨s', hvariable, h⟩ := do_ok_iff.mp h
  obtain ⟨⟨chain, u⟩, hchain, h⟩ := do_ok_iff.mp h
  cases h
  obtain ⟨hext, hnew⟩ := createVariable_after htype hvariable
  obtain ⟨hextBody, hbody⟩ := parseFields_brings body hchain
  refine ⟨hext.trans hextBody, fun ns hpath => ?_⟩
  obtain ⟨ks, rfl, hks⟩ := hpath.of_nodes
  obtain ⟨bodyPath, endPath, rfl, hbodyPath, hend⟩ := hks.of_append
  obtain ⟨endRest, rfl, hnull⟩ := hend.of_nodes
  cases hnull
  have hlinked : Brings s' s' linkNodes := .of_inner (parseLinks_inner hlinks)
  have hframe : Brings s u
      (.frameBegin path :: ((linkNodes ++ bodyPath) ++ [.frameEnd path, .result path .fromTo])) :=
    .enclose rfl rfl rfl rfl rfl hext hextBody hnew
      (hlinked.append .refl hextBody (hbody bodyPath hbodyPath))
  simpa using hframe

theorem parseEntries_brings {entries : List Entry} {r : Chain × SchemeImporter}
    (h : parseEntries env entries s = .ok r) :
    Extends s r.2 ∧ ∀ ns, Path r.1 ns → Brings s r.2 ns := by
  induction entries generalizing s r with
  | nil =>
    cases h
    refine ⟨.refl, fun ns hpath => ?_⟩
    obtain ⟨ks, rfl, hks⟩ := (show Path (.ofNodes [.nodeEnd] .null) ns from hpath).of_nodes
    cases hks
    exact .of_inner (by simp [Node.beginOf, Node.endOf, Node.isResultFromTo])
  | cons entry entries ih =>
    cases entry with
    | scheme name =>
      obtain ⟨tail, htail, h⟩ := do_ok_iff.mp h
      cases h
      obtain ⟨hext, hpaths⟩ := ih htail
      refine ⟨hext, fun ns hpath => ?_⟩
      obtain ⟨ks, rfl, hks⟩ := hpath.of_nodes
      have hscheme : Brings s s [.schemeBegin name, .schemeEnd name] :=
        .of_inner (by simp [Node.beginOf, Node.endOf, Node.isResultFromTo])
      exact hscheme.append .refl hext (hpaths ks hks)
    | frame path links body =>
      obtain ⟨frame, hframe, h⟩ := do_ok_iff.mp h
      obtain ⟨tail, htail, h⟩ := do_ok_iff.mp h
      cases h
      obtain ⟨hextFrame, hframePaths⟩ := parseFrame_brings hframe
      obtain ⟨hext, hpaths⟩ := ih htail
      refine ⟨hextFrame.trans hext, fun ns hpath => ?_⟩
      obtain ⟨ms, ks, rfl, hms, hks⟩ := hpath.of_append
      exact (hframePaths ms hms).append hextFrame hext (hpaths ks hks)

theorem fromEntries_path {entries : List Entry} {c : Chain} {ns : List Node}
    (h : fromEntries env entries = .ok c) (hpath : Path c ns) :
    Bracketed ns ∧ (ns.filterMap Node.beginOf).Nodup ∧ (ns.filterMap Node.endOf).Nodup := by
  obtain ⟨r, hr, rfl⟩ := map_ok_iff.mp h
  obtain ⟨hext, hpaths⟩ := parseEntries_brings hr
  obtain ⟨ks, rfl, hks⟩ := (show Path (.ofNodes [.nodeBegin] r.1) ns from hpath).of_nodes
  have hbegin : Brings new new [.nodeBegin] :=
    .of_inner (by simp [Node.beginOf, Node.endOf, Node.isResultFromTo])
  have hall := hbegin.append .refl hext (hpaths ks hks)
  exact ⟨hall.bracketed, hall.begins.nodup, hall.ends.nodup⟩

end SchemeImporter

end DecodingProxy.MappedFrameReader
