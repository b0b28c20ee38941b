import ShaderGraph.Document.Choices
import ShaderGraph.Document.Graphs
import ShaderGraph.Proofs.JsonText

/-!
# Documents read back

Whatever is written as a document is read back as it was: graphs, node types and settings
(`documents_read_back`). Each decoder is met by what it is written from (`Written`): a value that
has a text and that the decoder takes for the data. For a record this is the statement for each of
its fields, with those that are left out restored by their defaults.

The one condition is on numbers. A document has no word for what is not finite, and a depth is a
machine word.
-/

namespace ShaderGraph

/-! ## Maps -/

namespace Dict

variable {α : Type}

/-- An entry with the greatest key goes to the end. -/
theorem place_of_lt {key : String} (value : α) {entries : List (String × α)}
    (h : ∀ e ∈ entries, e.1 < key) : place key value entries = entries ++ [(key, value)] := by
  induction entries with
  | nil => rfl
  | cons first rest ih =>
    obtain ⟨hfirst, hrest⟩ := List.forall_mem_cons.1 h
    have hnot : ¬ key < first.1 := fun hlt => String.lt_irrefl _ (String.lt_trans hlt hfirst)
    have hne : key ≠ first.1 := by
      rintro rfl
      exact String.lt_irrefl _ hfirst
    rw [place, if_neg hnot, if_neg hne, ih hrest]
    rfl

theorem entries_foldl_insert {entries : List (String × α)} (d : Dict α)
    (h : (d.entries ++ entries).Pairwise fun a b => a.1 < b.1) :
    (entries.foldl (fun d e => d.insert e.1 e.2) d).entries = d.entries ++ entries := by
  induction entries generalizing d with
  | nil => exact (List.append_nil _).symm
  | cons e rest ih =>
    have hlast : (d.insert e.1 e.2).entries = d.entries ++ [e] :=
      place_of_lt e.2 fun e' he' => (List.pairwise_append.1 h).2.2 e' he' e List.mem_cons_self
    have hentries : (d.insert e.1 e.2).entries ++ rest = d.entries ++ e :: rest := by
      rw [hlast, List.append_assoc, List.singleton_append]
    rw [List.foldl_cons, ih _ (hentries ▸ h), hentries]

/-- A map is made again from its entries. -/
theorem ofList_entries (d : Dict α) : ofList d.entries = d := by
  ext1
  exact entries_foldl_insert empty d.ascending

end Dict

/-! ## What decoders take -/

namespace Json

variable {α : Type} {decoder : Decoder α} {x : α} {json : Json}

/-- A value that has a text and that a decoder takes for the data. -/
structure Written (decoder : Decoder α) (x : α) (json : Json) : Prop where
  proper : json.Proper
  decoded : decoder json = some x

/-- **What is written is read back.** -/
theorem Written.parse? (h : Written decoder x json) :
    (Json.parse? json.text).bind decoder = some x := by
  rw [parse?_text h.proper, Option.bind_some, h.decoded]

theorem written_text (text : String) : Written asText text (.ofText text) :=
  ⟨.string _, rfl⟩

theorem written_bool (value : Bool) : Written asBool value (.bool value) :=
  ⟨.bool value, rfl⟩

theorem written_float {x : Float} (h : x.isFinite = true) : Written asFloat x (.ofFloat x) := by
  obtain ⟨n, hn, hproper, hfloat⟩ := ofFloat_eq h
  rw [hn]
  exact ⟨.number hproper, hfloat⟩

theorem written_nat {n : ℕ} (h : n < 2 ^ 64) : Written asNat n (.ofNat n) := by
  refine ⟨.number ⟨Numeral.leads_toDigits n, by simp, .inl rfl⟩, ?_⟩
  have hnat : Numeral.toNat? ⟨false, Nat.toDigits 10 n, [], []⟩ = some n := by
    rw [Numeral.toNat?, natOfDigits_toDigits]
    rfl
  have hlt : decide (n < Nat.pow 2 64) = true := decide_eq_true h
  simp only [asNat, ofNat, hnat, Option.filter_some, hlt, if_true]

/-- A decoder of items, item by item. -/
theorem mapM_map {β : Type} {item : β → Option α} {encode : α → β} {xs : List α}
    (h : ∀ x ∈ xs, item (encode x) = some x) : (xs.map encode).mapM item = some xs := by
  induction xs with
  | nil => rfl
  | cons x rest ih =>
    obtain ⟨hx, hrest⟩ := List.forall_mem_cons.1 h
    rw [List.map_cons, List.mapM_cons, hx, ih hrest]
    rfl

theorem written_list {encode : α → Json} {xs : List α}
    (h : ∀ x ∈ xs, Written decoder x (encode x)) :
    Written (asList decoder) xs (.array (xs.map encode)) := by
  refine ⟨.array ?_, mapM_map fun x hx => (h x hx).decoded⟩
  rintro json hjson
  obtain ⟨x, hx, rfl⟩ := List.mem_map.1 hjson
  exact (h x hx).proper

theorem written_texts (texts : List String) : Written (asList asText) texts (.ofTexts texts) :=
  written_list fun text _ => written_text text

theorem proper_record {members : List (String × Json)} (h : ∀ m ∈ members, m.2.Proper) :
    (record members).Proper := by
  refine .object fun member hmember => ?_
  obtain ⟨m, hm, rfl⟩ := List.mem_map.1 hmember
  exact h m hm

theorem written_dict {encode : α → Json} {d : Dict α}
    (h : ∀ x ∈ d.values, Written decoder x (encode x)) :
    Written (asDict decoder) d (d.toJson encode) := by
  have hentry : ∀ e ∈ d.entries, Written decoder e.2 (encode e.2) :=
    fun e he => h e.2 (List.mem_map.2 ⟨e, he, rfl⟩)
  refine ⟨proper_record fun m hm => ?_, ?_⟩
  · obtain ⟨e, he, rfl⟩ := List.mem_map.1 hm
    exact (hentry e he).proper
  · rw [Dict.toJson, record, asDict, List.map_map, mapM_map]
    · exact congrArg some d.ofList_entries
    · intro e he
      simp [(hentry e he).decoded]

/-- Alternatives with names of their own. -/
theorem written_choice {choices : List α} {name : α → String} {choice : α}
    (h : choices.find? (name · == name choice) = some choice) :
    Written (asChoice choices name) choice (.ofText (name choice)) :=
  ⟨.string _, h⟩

/-- What is there is decoded by an optional decoder too. -/
theorem Written.present (h : Written decoder x json) (hne : json ≠ .null) :
    Written (asOption decoder) (some x) json := by
  refine ⟨h.proper, ?_⟩
  cases json with
  | null => exact absurd rfl hne
  | _ => exact congrArg (Option.map some) h.decoded

/-! ## Records -/

/-- The fields of a record that is written with some of them, in order. -/
theorem fields_record {names : List String} {members : List (String × Json)}
    (hnames : names.Nodup) (hmembers : (members.map Prod.fst).Sublist names) :
    fields names (record members) = some members := by
  have hnamed : (members.map fun m => (some m.1, m.2)).mapM
      (fun m : Option String × Json => m.1.map (·, m.2)) = some members :=
    mapM_map fun _ _ => rfl
  have hknown : members.filter (fun m => names.contains m.1) = members := by
    refine List.filter_eq_self.2 fun m hm => ?_
    exact List.contains_iff_mem.2 (hmembers.subset (List.mem_map.2 ⟨m, hm, rfl⟩))
  simp only [fields, record, hnamed, Option.bind_eq_bind, Option.bind_some, hknown,
    if_pos (hnames.sublist hmembers)]

/-- A record is decoded where its fields are. -/
theorem written_record {names : List String} {members : List (String × Json)}
    {read : Fields → Option α} (hnames : names.Nodup)
    (hmembers : (members.map Prod.fst).Sublist names) (hproper : ∀ m ∈ members, m.2.Proper)
    (hread : read members = some x) :
    Written (fun json => (fields names json).bind read) x (record members) := by
  refine ⟨proper_record hproper, ?_⟩
  rw [fields_record hnames hmembers, Option.bind_some, hread]

@[simp] theorem lookup_optionalMember (name : String) (json : Option Json) (key : String) :
    (optionalMember name json).lookup key = if key = name then json else none := by
  cases json with
  | none => simp [optionalMember]
  | some json => exact lookup_cons name json [] key

theorem proper_optionalMember {name : String} {json : Option Json} (h : ∀ j ∈ json, j.Proper) :
    ∀ m ∈ optionalMember name json, m.2.Proper := by
  cases json with
  | none => exact nofun
  | some json => simpa [optionalMember] using h

theorem proper_optional {name : String} {encode : α → Json} {value : Option α}
    (h : ∀ x ∈ value, (encode x).Proper) :
    ∀ m ∈ optionalMember name (value.map encode), m.2.Proper := by
  refine proper_optionalMember fun j hj => ?_
  obtain ⟨x, hx, rfl⟩ := Option.mem_map.1 hj
  exact h x hx

/-- A member that may be left out takes the place of its name. -/
theorem optionalMember_sublist (name : String) (json : Option Json) :
    ((optionalMember name json).map Prod.fst).Sublist [name] := by
  cases json with
  | none => exact List.nil_sublist _
  | some json => exact .refl _

variable {f : Fields} {name : String}

theorem Written.required (h : Written decoder x json) (hname : f.lookup name = some json) :
    f.required name decoder = some x := by
  rw [Fields.required, hname, Option.bind_some, h.decoded]

theorem Written.withDefault (h : Written decoder x json) (hname : f.lookup name = some json)
    (default : α) : f.withDefault name decoder default = some x := by
  rw [Fields.withDefault, hname]
  exact h.decoded

theorem Written.list {xs : List α} (h : Written (asList decoder) xs json)
    (hname : f.lookup name = some json) : f.list name decoder = some xs :=
  h.withDefault hname []

/-- A field that is left out where there is nothing to write. -/
theorem optional_of_lookup {encode : α → Json} (value : Option α)
    (h : ∀ x ∈ value, Written decoder x (encode x) ∧ encode x ≠ .null)
    (hname : f.lookup name = value.map encode) : f.optional name decoder = some value := by
  cases value with
  | none =>
    rw [Fields.optional, Fields.withDefault, hname]
    rfl
  | some x =>
    obtain ⟨hwritten, hne⟩ := h x rfl
    exact (hwritten.present hne).withDefault hname none

/-- A list that is left out where it is empty. -/
theorem list_of_lookup {xs : List α} (h : Written (asList decoder) xs json)
    (hname : f.lookup name = if xs.isEmpty then none else some json) :
    f.list name decoder = some xs := by
  cases xs with
  | nil =>
    rw [Fields.list, Fields.withDefault, hname]
    rfl
  | cons x rest => exact h.list hname

theorem optional_text (value : Option String) (hname : f.lookup name = value.map ofText) :
    f.optional name asText = some value :=
  optional_of_lookup value (fun text _ => ⟨written_text text, nofun⟩) hname

theorem optional_float {value : Option Float} (h : ∀ x ∈ value, x.isFinite = true)
    (hname : f.lookup name = value.map ofFloat) : f.optional name asFloat = some value := by
  refine optional_of_lookup value (fun x hx => ⟨written_float (h x hx), ?_⟩) hname
  obtain ⟨n, hn, -⟩ := ofFloat_eq (h x hx)
  rw [hn]
  exact nofun

end Json

open Json

/-! ## Numbers of documents -/

/-- The numbers of a key. -/
def Key.allNumbers (k : Key Float) : List Float := [k.time, k.value]

/-- The numbers of a curve. -/
def Curve.allNumbers (c : Curve Float) : List Float := c.keys.flatMap Key.allNumbers

/-- The numbers of a region. -/
def Region.allNumbers (r : Region Float) : List Float :=
  r.start :: r.duration :: r.curve.allNumbers

/-- The numbers of a lane. -/
def Lane.allNumbers (l : Lane Float) : List Float := l.regions.flatMap Region.allNumbers

/-- The numbers that a value holds. -/
def Param.Value.allNumbers : Param.Value → List Float
  | .number value => [value]
  | .text _ => []
  | .numbers values => values

/-- The numbers of a parameter: its default and its bounds. -/
def Param.allNumbers (p : Param) : List Float :=
  p.default.allNumbers ++ p.min.toList ++ p.max.toList

/-- The numbers of a node. -/
def Node.allNumbers (n : Node) : List Float := n.params.values.flatMap Param.Value.allNumbers

/-- The numbers of a graph: settings of its nodes and automation. -/
def Graph.allNumbers (g : Graph) : List Float :=
  g.nodes.flatMap Node.allNumbers ++ g.lanes.flatMap Lane.allNumbers

/-- The numbers of a node type. -/
def NodeType.allNumbers (t : NodeType) : List Float := t.params.values.flatMap Param.allNumbers

/-- Whether all of some numbers are finite. -/
def AllFinite (numbers : List Float) : Prop := ∀ x ∈ numbers, x.isFinite = true

instance (numbers : List Float) : Decidable (AllFinite numbers) :=
  inferInstanceAs (Decidable (∀ x ∈ numbers, x.isFinite = true))

theorem allFinite_append {front back : List Float} :
    AllFinite (front ++ back) ↔ AllFinite front ∧ AllFinite back :=
  List.forall_mem_append

theorem allFinite_flatMap {α : Type} {numbers : α → List Float} {xs : List α} :
    AllFinite (xs.flatMap numbers) ↔ ∀ x ∈ xs, AllFinite (numbers x) :=
  List.forall_mem_flatMap

/-! ## Values and automation -/

theorem Param.Value.written {v : Param.Value} (h : AllFinite v.allNumbers) :
    Written Param.Value.ofJson v v.toJson := by
  cases v with
  | number x =>
    obtain ⟨n, hn, hproper, hfloat⟩ := ofFloat_eq (h x List.mem_cons_self)
    rw [toJson, hn]
    exact ⟨.number hproper, congrArg (Option.map number) hfloat⟩
  | text content => exact ⟨.string _, rfl⟩
  | numbers xs =>
    obtain ⟨hproper, hxs⟩ := written_list fun x hx => written_float (h x hx)
    exact ⟨hproper, congrArg (Option.map numbers) hxs⟩

theorem Key.written {k : Key Float} (h : AllFinite k.allNumbers) :
    Written Key.ofJson k k.toJson := by
  have htime := written_float (h k.time (by simp [allNumbers]))
  have hvalue := written_float (h k.value (by simp [allNumbers]))
  refine written_record (by decide) (.refl _) (by simp [htime.proper, hvalue.proper]) ?_
  rw [htime.required rfl, hvalue.required rfl]
  rfl

theorem Curve.written {c : Curve Float} (h : AllFinite c.allNumbers) :
    Written Curve.ofJson c c.toJson := by
  have hinterpolation : Written (asChoice Interpolation.all Interpolation.name) c.interpolation
      (.ofText c.interpolation.name) :=
    written_choice (by cases c.interpolation <;> decide)
  have hkeys : Written (asList Key.ofJson) c.keys (.array (c.keys.map Key.toJson)) :=
    written_list fun k hk => Key.written (allFinite_flatMap.1 h k hk)
  refine written_record (by decide) (.refl _)
    (by simp [hinterpolation.proper, hkeys.proper]) ?_
  rw [hinterpolation.withDefault rfl, hkeys.list rfl]
  rfl

theorem Region.written {r : Region Float} (h : AllFinite r.allNumbers) :
    Written Region.ofJson r r.toJson := by
  have hstart := written_float (h r.start (by simp [allNumbers]))
  have hduration := written_float (h r.duration (by simp [allNumbers]))
  have hloops := written_bool r.loops
  have hcurve : Written Curve.ofJson r.curve r.curve.toJson :=
    Curve.written fun x hx => h x (by simp [allNumbers, hx])
  refine written_record (by decide) (.refl _)
    (by simp [hstart.proper, hduration.proper, hloops.proper, hcurve.proper]) ?_
  rw [hstart.required rfl, hduration.required rfl, hloops.withDefault rfl, hcurve.required rfl]
  rfl

theorem Lane.written {l : Lane Float} (h : AllFinite l.allNumbers) :
    Written Lane.ofJson l l.toJson := by
  have hid := written_text l.id
  have hnode := written_text l.nodeId
  have hparam := written_text l.paramName
  have hregions : Written (asList Region.ofJson) l.regions
      (.array (l.regions.map Region.toJson)) :=
    written_list fun r hr => Region.written (allFinite_flatMap.1 h r hr)
  refine written_record (by decide) (.refl _)
    (by simp [hid.proper, hnode.proper, hparam.proper, hregions.proper]) ?_
  rw [hid.required rfl, hnode.required rfl, hparam.required rfl, hregions.list rfl]
  rfl

/-! ## Graphs -/

theorem Param.Combine.written (c : Param.Combine) :
    Written Param.Combine.ofJson c (.ofText c.name) :=
  written_choice (by cases c <;> decide)

theorem Node.written {n : Node} (h : AllFinite n.allNumbers) :
    Written Node.ofJson n n.toJson := by
  have hid := written_text n.id
  have htype := written_text n.type
  have hparams : Written (asDict Param.Value.ofJson) n.params
      (n.params.toJson Param.Value.toJson) :=
    written_dict fun v hv => Param.Value.written (allFinite_flatMap.1 h v hv)
  have hcombines : Written (asDict Param.Combine.ofJson) n.combines
      (n.combines.toJson fun c => .ofText c.name) :=
    written_dict fun c _ => c.written
  refine written_record (by decide) (.refl _)
    (by simp [hid.proper, htype.proper, hparams.proper, hcombines.proper]) ?_
  rw [hid.required rfl, htype.required rfl, hparams.withDefault rfl, hcombines.withDefault rfl]
  rfl

theorem Connection.written (c : Connection) : Written Connection.ofJson c c.toJson := by
  have hid := written_text c.id
  have hsource := written_text c.sourceId
  have hsourcePort := written_text c.sourcePort
  have htarget := written_text c.targetId
  refine written_record (by decide) ?_ ?_ ?_
  · rw [List.map_append, List.map_append]
    exact .append (.append (.refl _) (optionalMember_sublist _ _)) (optionalMember_sublist _ _)
  · refine List.forall_mem_append.2 ⟨List.forall_mem_append.2 ⟨?_, ?_⟩, ?_⟩
    · simp [hid.proper, hsource.proper, hsourcePort.proper, htarget.proper]
    · exact proper_optional fun text _ => (written_text text).proper
    · exact proper_optional fun text _ => (written_text text).proper
  · rw [hid.required rfl, hsource.required rfl, hsourcePort.required rfl, htarget.required rfl,
      optional_text c.targetPort (by simp [lookup_cons, List.lookup_append]),
      optional_text c.targetParameter (by simp [lookup_cons, List.lookup_append])]
    rfl

theorem Graph.written {g : Graph} (h : AllFinite g.allNumbers) :
    Written Graph.ofJson g g.toJson := by
  obtain ⟨hnodeNumbers, hlaneNumbers⟩ := allFinite_append.1 h
  have hid := written_text g.id
  have hname := written_text g.name
  have hversion := written_text g.version
  have hnodes : Written (asList Node.ofJson) g.nodes (.array (g.nodes.map Node.toJson)) :=
    written_list fun n hn => Node.written (allFinite_flatMap.1 hnodeNumbers n hn)
  have hconnections : Written (asList Connection.ofJson) g.connections
      (.array (g.connections.map Connection.toJson)) :=
    written_list fun c _ => c.written
  have hlanes : Written (asList Lane.ofJson) g.lanes (.array (g.lanes.map Lane.toJson)) :=
    written_list fun l hl => Lane.written (allFinite_flatMap.1 hlaneNumbers l hl)
  refine written_record (by decide) (.refl _) (by simp [hid.proper, hname.proper,
    hversion.proper, hnodes.proper, hconnections.proper, hlanes.proper]) ?_
  rw [hid.required rfl, hname.required rfl, hversion.required rfl, hnodes.list rfl,
    hconnections.list rfl, hlanes.list rfl]
  rfl

/-! ## Node types -/

theorem ValueType.written (type : ValueType) : Written ValueType.ofJson type (.ofText type.name) :=
  written_choice (by cases type <;> decide)

theorem Param.Kind.written (kind : Param.Kind) :
    Written Param.Kind.ofJson kind (.ofText kind.name) :=
  written_choice (by cases kind <;> decide)

theorem Port.written (p : Port) : Written Port.ofJson p p.toJson := by
  have hname := written_text p.name
  have htype := p.type.written
  have hparams := written_texts p.fallbackParams
  have hmember : (if p.fallbackParams.isEmpty then []
        else [("fallbackParams", ofTexts p.fallbackParams)])
      = optionalMember "fallbackParams"
          (if p.fallbackParams.isEmpty then none else some (ofTexts p.fallbackParams)) := by
    split <;> rfl
  rw [toJson, hmember]
  refine written_record (by decide) ?_ ?_ ?_
  · rw [List.map_append, List.map_append]
    exact .append (.append (.refl _) (optionalMember_sublist _ _)) (optionalMember_sublist _ _)
  · refine List.forall_mem_append.2 ⟨List.forall_mem_append.2 ⟨?_, ?_⟩, ?_⟩
    · simp [hname.proper, htype.proper]
    · exact proper_optional fun text _ => (written_text text).proper
    · refine proper_optionalMember fun json hjson => ?_
      split at hjson
      · cases hjson
      · obtain rfl := Option.mem_some.1 hjson
        exact hparams.proper
  · rw [hname.required rfl, htype.required rfl,
      optional_text p.fallback (by simp [lookup_cons, List.lookup_append]),
      list_of_lookup hparams (by simp [lookup_cons, List.lookup_append])]
    rfl

theorem Param.written {p : Param} (h : AllFinite p.allNumbers) :
    Written Param.ofJson p p.toJson := by
  obtain ⟨hrest, hmax⟩ := allFinite_append.1 h
  obtain ⟨hvalue, hmin⟩ := allFinite_append.1 hrest
  have hkind := p.kind.written
  have hdefault := Param.Value.written hvalue
  have hcombine := p.combine.written
  have hminFinite : ∀ x ∈ p.min, x.isFinite = true := fun x hx => hmin x (Option.mem_toList.2 hx)
  have hmaxFinite : ∀ x ∈ p.max, x.isFinite = true := fun x hx => hmax x (Option.mem_toList.2 hx)
  refine written_record (by decide) ?_ ?_ ?_
  · simp only [List.map_append]
    exact .append (.append (.append (.refl _) (optionalMember_sublist _ _))
      (optionalMember_sublist _ _)) (.refl _)
  · refine List.forall_mem_append.2
      ⟨List.forall_mem_append.2 ⟨List.forall_mem_append.2 ⟨?_, ?_⟩, ?_⟩, ?_⟩
    · simp [hkind.proper, hdefault.proper]
    · exact proper_optional fun x hx => (written_float (hminFinite x hx)).proper
    · exact proper_optional fun x hx => (written_float (hmaxFinite x hx)).proper
    · simp [hcombine.proper]
  · rw [hkind.required rfl, hdefault.required rfl,
      optional_float hminFinite (by simp [lookup_cons, List.lookup_append]),
      optional_float hmaxFinite (by simp [lookup_cons, List.lookup_append]),
      hcombine.withDefault (by simp [lookup_cons, List.lookup_append])]
    rfl

theorem NodeType.written {t : NodeType} (h : AllFinite t.allNumbers) :
    Written NodeType.ofJson t t.toJson := by
  have hid := written_text t.id
  have hcategory := written_text t.category
  have hinputs : Written (asList Port.ofJson) t.inputs (.array (t.inputs.map Port.toJson)) :=
    written_list fun p _ => p.written
  have houtputs : Written (asList Port.ofJson) t.outputs (.array (t.outputs.map Port.toJson)) :=
    written_list fun p _ => p.written
  have hparams : Written (asDict Param.ofJson) t.params (t.params.toJson Param.toJson) :=
    written_dict fun p hp => Param.written (allFinite_flatMap.1 h p hp)
  have hcode := written_text t.mainCode
  refine written_record (by decide) ?_ ?_ ?_
  · rw [List.map_append, List.map_append]
    exact .append (.append (.refl _) (optionalMember_sublist _ _)) (.refl _)
  · refine List.forall_mem_append.2 ⟨List.forall_mem_append.2 ⟨?_, ?_⟩, ?_⟩
    · simp [hid.proper, hcategory.proper, hinputs.proper, houtputs.proper, hparams.proper]
    · exact proper_optional fun text _ => (written_text text).proper
    · simp [hcode.proper]
  · rw [hid.required rfl, hcategory.withDefault rfl, hinputs.list rfl, houtputs.list rfl,
      hparams.withDefault rfl,
      optional_text t.functionCode (by simp [lookup_cons, List.lookup_append]),
      hcode.withDefault (by simp [lookup_cons, List.lookup_append])]
    rfl

/-- A catalog of one node type holds it. -/
theorem Catalog.find?_parse? {t : NodeType} (h : AllFinite t.allNumbers) :
    (Catalog.parse? (Json.array [t.toJson]).text).bind (·.find? t.id) = some t := by
  have hlist : Written (asList NodeType.ofJson) [t] (.array [t.toJson]) :=
    written_list fun t' ht' => List.mem_singleton.1 ht' ▸ NodeType.written h
  have hparse : Catalog.parse? (Json.array [t.toJson]).text = some (Catalog.ofList [t]) := by
    rw [parse?, parse?_text hlist.proper]
    exact congrArg (Option.map Catalog.ofList) hlist.decoded
  rw [hparse, Option.bind_some]
  simp [ofList, register, empty, find?]

/-! ## Settings -/

theorem Settings.written {s : Settings} (h : s.inlineDepth < 2 ^ 64) :
    Written Settings.ofJson s s.toJson := by
  have hdepth := written_nat h
  have huniforms := written_bool s.parameterUniforms
  refine written_record (by decide) (.refl _)
    (by simp [(written_text _).proper, huniforms.proper, hdepth.proper]) ?_
  dsimp only
  rw [(written_text s.virtualMark).withDefault rfl, (written_text s.glslVersion).withDefault rfl,
    huniforms.withDefault rfl, (written_text s.outputCategory).withDefault rfl,
    (written_text s.distancePort).withDefault rfl,
    (written_text s.displacementPort).withDefault rfl,
    (written_text s.marchPoint).withDefault rfl, hdepth.withDefault rfl]
  rfl

/-- **Documents read back as what they were written from**: graphs and node types whose numbers are
finite, a node type as the one item of a catalog, and settings that admit a program. Numbers come
back to the bit, for `Json.asFloat` reads the nearest double. This is assumed of the package that
reads JSON. One that does not round correctly can be a unit off in the last place. -/
theorem documents_read_back :
    (∀ g : Graph, AllFinite g.allNumbers → Graph.parse? g.toJson.text = some g)
      ∧ (∀ t : NodeType, AllFinite t.allNumbers →
          (Catalog.parse? (Json.array [t.toJson]).text).bind (·.find? t.id) = some t)
      ∧ ∀ s : Settings, s.check = .ok s → s.inlineDepth < 2 ^ 64 →
          (Settings.parse? s.toJson.text).map Settings.check = some (.ok s) := by
  refine ⟨fun g hg => (Graph.written hg).parse?, fun t ht => Catalog.find?_parse? ht, ?_⟩
  intro s hcheck hdepth
  have hparse : Settings.parse? s.toJson.text = some s := (Settings.written hdepth).parse?
  rw [hparse, Option.map_some, hcheck]

/-- A graph with a negative zero, the least positive number, an empty array and texts that need
escapes. -/
def Graph.postcard : Graph where
  id := "a\"b\\c"
  name := "line\nbreak\x01"
  version := "1.0"
  nodes := [(Node.bare "mix" "é𝄞").withParam "amount" (.number (-0.0))
    |>.withParam "curve" (.numbers [0.1, 1e23, 5e-324]) |>.withParam "empty" (.numbers [])
    |>.withParam "label" (.text "") |>.withCombine "amount" .add]
  connections := [Connection.between "c" ("mix", "out") "mix" (.parameter "amount")]
  lanes := [⟨"l", "mix", "amount", [⟨0.25, 2.0, true, ⟨.bezier, [⟨0.0, 1.5e300⟩]⟩⟩]⟩]

/-- A node type with one bound of two, a port with a fallback and one without. -/
def NodeType.postmark : NodeType :=
  (NodeType.bare "stamp" "output").withInput ⟨"in", .vec2, some "vec2(0.0)", ["x", "y"]⟩
    |>.withOutput (Port.plain "out" .float)
    |>.withParam "x" { Param.float 0.1 with min := some (-1e-7) }

/-- Both are written and read back, and so are the settings that are there without a document. -/
theorem documents_read_back_postcard :
    AllFinite Graph.postcard.allNumbers
      ∧ Graph.parse? Graph.postcard.toJson.text = some Graph.postcard
      ∧ AllFinite NodeType.postmark.allNumbers
      ∧ (Catalog.parse? (Json.array [NodeType.postmark.toJson]).text).bind
          (·.find? NodeType.postmark.id) = some NodeType.postmark
      ∧ (Settings.parse? (Settings.toJson {}).text).map Settings.check = some (.ok {}) := by
  obtain ⟨hgraph, htype, hsettings⟩ := documents_read_back
  have hcard : AllFinite Graph.postcard.allNumbers := by decide +kernel
  have hmark : AllFinite NodeType.postmark.allNumbers := by decide +kernel
  exact ⟨hcard, hgraph _ hcard, hmark, htype _ hmark, hsettings {} (by decide +kernel) (by decide)⟩

end ShaderGraph
