import Handicap.Engine.Theorems.Fields

-- The parts of a scenario are read from what they are written as.
namespace Engine

open Guard (bind_eq_ok forM_eq_ok refuse_eq_ok)

section

variable {ε α β : Type} {l : List α} {g : α → β}

theorem mapM_map {f : β → Except ε α} (h : ∀ a ∈ l, f (g a) = .ok a) :
    (l.map g).mapM f = .ok l := by
  induction l
  case nil => rfl
  case cons a l ih =>
    have ⟨ha, hl⟩ := List.forall_mem_cons.mp h
    rw [List.map_cons, List.mapM_cons, ha, ih hl]
    rfl

theorem mem_of_mapM {f : α → Except ε β} {bs : List β} {b : β} (h : l.mapM f = .ok bs)
    (hb : b ∈ bs) : ∃ a ∈ l, f a = .ok b := by
  induction l generalizing bs
  case nil =>
    obtain rfl : [] = bs := Except.ok.inj h
    simp at hb
  case cons a l ih =>
    rw [List.mapM_cons] at h
    obtain ⟨b', hb', h⟩ := bind_eq_ok.mp h
    obtain ⟨bs', hbs, h⟩ := bind_eq_ok.mp h
    obtain rfl : b' :: bs' = bs := Except.ok.inj h
    cases List.mem_cons.mp hb
    case inl he => exact ⟨a, List.mem_cons_self, he ▸ hb'⟩
    case inr hm =>
      have ⟨a', ha, hf⟩ := ih hbs hm
      exact ⟨a', List.mem_cons_of_mem _ ha, hf⟩

end

section

variable {α : Type} {rows : List (String × String)} {y : Yaml} {n : ℕ}

theorem reads_sequence {read : Yaml → Except GenError α} {write : α → Yaml} {l : List α}
    (h : ∀ a ∈ l, Reads read (write a) a) : Reads (sequence read) (.sequence (l.map write)) l where
  tree := by
    refine .sequence fun y hy => ?_
    obtain ⟨a, ha, rfl⟩ := List.mem_map.mp hy
    exact (h a ha).tree
  read := mapM_map fun a ha => (h a ha).read

-- A map of values is written in the order of its keys.
theorem reads_rows (h : KeyOrder.Ordered rows) :
    Reads deserializeRows (serializeRows rows) rows where
  tree := by
    refine .mapping ?_ fun e he => ?_
    case refine_1 =>
      rw [List.map_map]
      exact h.nodup
    case refine_2 =>
      obtain ⟨row, _, rfl⟩ := List.mem_map.mp he
      exact .string row.2
  read := by
    have hr : (rows.map fun row => (row.1, Yaml.string row.2)).mapM (fun e => do
        return (e.1, ← deserializeString e.2) : _ → Except GenError (String × String)) = .ok rows :=
      mapM_map fun _ _ => rfl
    rw [serializeRows, deserializeRows, hr, ok_bind, KeyOrder.ofList_eq_self h]
    rfl

theorem rows_ordered (h : deserializeRows y = .ok rows) : KeyOrder.Ordered rows := by
  unfold deserializeRows at h
  split at h
  case h_1 =>
    obtain ⟨l, _, h⟩ := bind_eq_ok.mp h
    exact Except.ok.inj h ▸ KeyOrder.ofList_ordered l
  case h_2 => simp [invalid] at h

theorem ofInt_val {n : ℤ} (hlo : -2 ^ 63 ≤ n) (hhi : n < 2 ^ 64) : (YamlInt.ofInt n).val = n := by
  change max _ (min _ _) = n
  omega

theorem readU32_ofNat (h : n < 2 ^ 32) : readU32 (.ofNat n) = some n := by
  rw [Yaml.ofNat, readU32, ofInt_val (by omega) (by omega), if_pos (by omega), Int.toNat_natCast]

theorem readU16_ofNat (h : n < 2 ^ 16) : readU16 (.ofNat n) = some n := by
  rw [Yaml.ofNat, readU16, ofInt_val (by omega) (by omega), if_pos (by omega), Int.toNat_natCast]

theorem readU16_range (h : readU16 y = some n) : n < 2 ^ 16 := by
  cases y
  case int k =>
    obtain ⟨_, rfl⟩ : (0 ≤ k.val ∧ k.val < 2 ^ 16) ∧ k.val.toNat = n := by simpa [readU16] using h
    omega
  all_goals simp [readU16] at h

theorem readWord_ofNat (n : Store.U32) : readWord (.ofNat n) = some n := by
  rw [readWord, readU32_ofNat n.isLt, Option.bind_some, dif_pos n.isLt]

end

open Store (ThinkTime)

theorem reads_thinkTime (t : ThinkTime) :
    Reads deserializeThinkTime (serializeThinkTime t) t := by
  have hs : serializeThinkTime t = .mapping (collect
      [("min_ms", some (.ofNat t.minMs)), ("max_ms", some (.ofNat t.maxMs))]) := rfl
  rw [hs]
  refine reads_mapping (by simp) (by simp) fun m hm hl => ?_
  have hget := hl.get
  simp only [List.forall_mem_cons] at hget
  obtain ⟨hmin, hmax, -⟩ := hget
  rw [deserializeThinkTime, Yaml.fields, hm, ok_bind, required_of_get hmin (readWord_ofNat _),
    ok_bind, required_of_get hmax (readWord_ofNat _), ok_bind]
  rfl

-- A value of JSON whose objects are in the order of their keys.
inductive Json.Canonical : Json → Prop
  | null : Canonical .null
  | bool (b : Bool) : Canonical (.bool b)
  | number (n : JsonNumber) : Canonical (.number n)
  | string (s : String) : Canonical (.string s)
  | array {items : List Json} (h : ∀ json ∈ items, Canonical json) : Canonical (.array items)
  | object {map : List (String × Json)} (ho : KeyOrder.Ordered map)
      (h : ∀ e ∈ map, Canonical e.2) : Canonical (.object map)

mutual

theorem json_canonical (y : Yaml) (json : Json) (h : y.json = .ok json) : json.Canonical := by
  cases y <;> simp only [Yaml.json] at h
  case null     => exact Except.ok.inj h ▸ .null
  case bool b   => exact Except.ok.inj h ▸ .bool b
  case int n    => exact Except.ok.inj h ▸ .number (.int n)
  case wide     => simp [invalid] at h
  case float q  => exact Except.ok.inj h ▸ .number (.float q)
  case string s => exact Except.ok.inj h ▸ .string s
  case sequence items =>
    obtain ⟨l, hl, rfl⟩ := map_eq_ok h
    exact .array (jsonItems_canonical items l hl)
  case mapping entries =>
    obtain ⟨map, hm, rfl⟩ := map_eq_ok h
    exact .object (KeyOrder.ofList_ordered _) fun e he =>
      jsonMembers_canonical entries map hm e (KeyOrder.mem_ofList he)

theorem jsonItems_canonical (items : List Yaml) (l : List Json) (h : jsonItems items = .ok l) :
    ∀ json ∈ l, json.Canonical := by
  cases items
  case nil =>
    obtain rfl : [] = l := Except.ok.inj h
    simp
  case cons y items =>
    simp only [jsonItems] at h
    obtain ⟨json, hj, h⟩ := bind_eq_ok.mp h
    obtain ⟨l', hl, h⟩ := bind_eq_ok.mp h
    obtain rfl := Except.ok.inj h
    exact List.forall_mem_cons.mpr ⟨json_canonical y json hj, jsonItems_canonical items l' hl⟩

theorem jsonMembers_canonical (entries : List (String × Yaml)) (map : List (String × Json))
    (h : jsonMembers entries = .ok map) : ∀ e ∈ map, e.2.Canonical := by
  cases entries
  case nil =>
    obtain rfl : [] = map := Except.ok.inj h
    simp
  case cons e entries =>
    simp only [jsonMembers] at h
    obtain ⟨json, hj, h⟩ := bind_eq_ok.mp h
    obtain ⟨map', hm, h⟩ := bind_eq_ok.mp h
    obtain rfl := Except.ok.inj h
    exact List.forall_mem_cons.mpr
      ⟨json_canonical e.2 json hj, jsonMembers_canonical entries map' hm⟩

end

theorem serializeItems_eq (items : List Json) :
    serializeItems items = items.map Json.serialize := by
  induction items
  case nil            => rfl
  case cons json l ih => rw [serializeItems, ih, List.map_cons]

theorem serializeMembers_eq (map : List (String × Json)) :
    serializeMembers map = map.map fun e => (e.1, e.2.serialize) := by
  induction map
  case nil         => rfl
  case cons e l ih => rw [serializeMembers, ih, List.map_cons]

theorem jsonItems_eq (items : List Yaml) : jsonItems items = items.mapM Yaml.json := by
  induction items
  case nil         => rfl
  case cons y l ih => rw [jsonItems, ih, List.mapM_cons]

theorem jsonMembers_eq (entries : List (String × Yaml)) :
    jsonMembers entries = entries.mapM fun e => do return (e.1, ← e.2.json) := by
  induction entries
  case nil         => rfl
  case cons e l ih => 
    rw [jsonMembers, ih, List.mapM_cons]
    simp only [bind_assoc, pure_bind]

theorem reads_json {json : Json} (h : json.Canonical) :
    Reads Yaml.json json.serialize json := by
  induction h
  case null     => exact ⟨.null, rfl⟩
  case bool b   => exact ⟨.bool b, rfl⟩
  case string s => exact ⟨.string s, rfl⟩
  case number n =>
    cases n
    case int n   => exact ⟨.int n, rfl⟩
    case float q => exact ⟨.float q, rfl⟩
  case array items _ ih =>
    constructor
    case tree =>
      rw [Json.serialize, serializeItems_eq]
      exact .sequence (List.forall_mem_map.mpr fun json hj => (ih json hj).tree)
    case read =>
      have hi : (items.map Json.serialize).mapM Yaml.json = .ok items :=
        mapM_map fun json hj => (ih json hj).read
      rw [Json.serialize, Yaml.json, serializeItems_eq, jsonItems_eq, hi]
      rfl
  case object map ho _ ih =>
    constructor
    case tree =>
      rw [Json.serialize, serializeMembers_eq]
      refine .mapping ?_ (List.forall_mem_map.mpr fun e he => (ih e he).tree)
      rw [List.map_map]
      exact ho.nodup
    case read =>
      have hm : ((map.map fun e => (e.1, e.2.serialize)).mapM fun e => do
          return (e.1, ← e.2.json) : Except GenError (List (String × Json))) = .ok map :=
        mapM_map fun e he => by rw [(ih e he).read]; rfl
      rw [Json.serialize, Yaml.json, serializeMembers_eq, jsonMembers_eq, hm, Except.map,
        KeyOrder.ofList_eq_self ho]

section

variable {d : DisabledRows} {r : Request}

def DisabledRows.Canonical (d : DisabledRows) : Prop :=
  KeyOrder.Ordered d.headers ∧ KeyOrder.Ordered d.form

theorem reads_disabled (h : d.Canonical) : Reads DisabledRows.deserialize d.serialize d := by
  have hs : d.serialize = .mapping (collect [
      ("headers", (skipIf List.isEmpty d.headers).map serializeRows),
      ("form", (skipIf List.isEmpty d.form).map serializeRows)]) := by
    simp [DisabledRows.serialize]
  have hh := reads_skipIf List.isEmpty (reads_rows h.left)
  have hf := reads_skipIf List.isEmpty (reads_rows h.right)
  rw [hs]
  refine reads_mapping (by simp) ?_ fun m hm hl => ?_
  case refine_1 =>
    simp only [trees_map, trees_nil, and_true]
    exact ⟨fun l h => (hh l h).tree, fun l h => (hf l h).tree⟩
  case refine_2 =>
    have hget := hl.get
    simp only [List.forall_mem_cons] at hget
    obtain ⟨hgh, hgf, -⟩ := hget
    rw [DisabledRows.deserialize, Yaml.fields, hm, ok_bind, hl.denyUnknown (by simp), ok_bind,
      present_of_get hgh fun l h => (hh l h).read, ok_bind,
      present_of_get hgf fun l h => (hf l h).read, ok_bind,
      skipIf_getD List.isEmpty_iff.mp, skipIf_getD List.isEmpty_iff.mp]
    rfl

@[simp]
def Body.Canonical : Body → Prop
  | .json value  => value.Canonical
  | .form fields => KeyOrder.Ordered fields
  | .raw _       => True

theorem body_canonical {y : Yaml} {b : Body} (h : Body.deserialize y = .ok b) : b.Canonical := by
  unfold Body.deserialize at h
  split at h
  case h_1 => simp at h
  case h_2 key y rest =>
    obtain ⟨body, hb, h⟩ := bind_eq_ok.mp h
    obtain ⟨_, _, h⟩ := bind_eq_ok.mp h
    obtain rfl := Except.ok.inj h
    unfold Body.ofEntry at hb
    split at hb
    case h_1 =>
      obtain ⟨json, hj, rfl⟩ := map_eq_ok hb
      exact json_canonical y json hj
    case h_2 =>
      obtain ⟨rows, hr, rfl⟩ := map_eq_ok hb
      exact rows_ordered hr
    case h_3 =>
      obtain ⟨s, _, rfl⟩ := map_eq_ok hb
      trivial
    case h_4 => simp at hb
  case h_3 => simp [invalid] at h

theorem reads_body {b : Body} (h : b.Canonical) : Reads Body.deserialize b.serialize b := by
  have single {key : String} {y : Yaml} (hy : y.IsTree) : (Yaml.mapping [(key, y)]).IsTree :=
    .mapping (by simp) (by simpa using hy)
  cases b
  case json value =>
    have hv := reads_json h
    refine ⟨single hv.tree, ?_⟩
    rw [Body.serialize, Body.deserialize, Body.ofEntry, hv.read]
    rfl
  case form fields =>
    have hr := reads_rows h
    refine ⟨single hr.tree, ?_⟩
    rw [Body.serialize, Body.deserialize, Body.ofEntry, hr.read]
    rfl
  case raw text => exact ⟨single (.string text), rfl⟩

theorem getD_ordered {m : Mapping} {key : String} {o : Option (List (String × String))}
    (h : present m key deserializeRows = .ok o) : KeyOrder.Ordered (o.getD []) := by
  cases o
  case none => exact .nil
  case some rows =>
    obtain ⟨y, _, hy⟩ := present_reads h rows rfl
    exact rows_ordered hy

theorem disabled_canonical {y : Yaml} (h : DisabledRows.deserialize y = .ok d) : d.Canonical := by
  obtain ⟨m, _, h⟩ := bind_eq_ok.mp h
  obtain ⟨_, _, h⟩ := bind_eq_ok.mp h
  obtain ⟨headers, hh, h⟩ := bind_eq_ok.mp h
  obtain ⟨form, hf, h⟩ := bind_eq_ok.mp h
  obtain rfl := Except.ok.inj h
  exact ⟨getD_ordered hh, getD_ordered hf⟩

structure Request.Canonical (r : Request) : Prop where
  headers  : KeyOrder.Ordered r.headers
  body     : ∀ b ∈ r.body, b.Canonical
  disabled : r.disabled.Canonical

theorem request_canonical {y : Yaml} (h : Request.deserialize y = .ok r) : r.Canonical := by
  obtain ⟨m, _, h⟩ := bind_eq_ok.mp h
  obtain ⟨_, _, h⟩ := bind_eq_ok.mp h
  obtain ⟨_, _, h⟩ := bind_eq_ok.mp h
  obtain ⟨_, _, h⟩ := bind_eq_ok.mp h
  obtain ⟨headers, hh, h⟩ := bind_eq_ok.mp h
  obtain ⟨body, hb, h⟩ := bind_eq_ok.mp h
  obtain ⟨disabled, hd, h⟩ := bind_eq_ok.mp h
  obtain rfl := Except.ok.inj h
  refine ⟨getD_ordered hh, fun b hm => ?_, ?_⟩
  case refine_1 =>
    obtain ⟨y, _, hy⟩ := orNull_reads hb b hm
    exact body_canonical hy
  case refine_2 =>
    obtain _ | disabled := disabled
    case none => exact ⟨.nil, .nil⟩
    case some =>
      obtain ⟨y, _, hy⟩ := present_reads hd disabled rfl
      exact disabled_canonical hy

theorem variant_method (method : HttpMethod) :
    variant HttpMethod.names (.string method.name) = .ok method := by
  cases method <;> rfl

theorem disabled_eq_of_isEmpty (h : d.isEmpty) : d = ⟨[], []⟩ := by
  obtain ⟨hh, hf⟩ := Bool.and_eq_true_iff.mp h
  obtain ⟨headers, form⟩ := d
  simp_all

theorem reads_request (h : r.Canonical) : Reads Request.deserialize r.serialize r := by
  have hs : r.serialize = .mapping (collect [("method", some (.string r.method.name)),
      ("url", some (.string r.url)), ("headers", some (serializeRows r.headers)),
      ("body", some ((r.body.map Body.serialize).getD .null)),
      ("disabled", (skipIf DisabledRows.isEmpty r.disabled).map DisabledRows.serialize)]) := by
    simp [Request.serialize]
  have hh := reads_rows h.headers
  have hb : ∀ b ∈ r.body, Reads Body.deserialize b.serialize b :=
    fun b hm => reads_body (h.body b hm)
  have hn (b : Body) : b.serialize.isNull = false := by cases b <;> rfl
  have hd := reads_skipIf DisabledRows.isEmpty (reads_disabled h.disabled)
  rw [hs]
  refine reads_mapping (by simp) ?_ fun m hm hl => ?_
  case refine_1 =>
    simp only [trees_some, trees_map, trees_nil, and_true]
    refine ⟨.string _, .string _, hh.tree, ?_, fun d h => (hd d h).tree⟩
    cases hr : r.body
    case none   => exact .null
    case some b => exact (hb b hr).tree
  case refine_2 =>
    have hget := hl.get
    simp only [List.forall_mem_cons] at hget
    obtain ⟨hgm, hgu, hgh, hgb, hgd, -⟩ := hget
    rw [Request.deserialize, Yaml.fields, hm, ok_bind, hl.denyUnknown (by simp), ok_bind,
      field_of_get hgm (variant_method _), ok_bind, field_string hgu, ok_bind,
      present_of_some hgh hh.read, ok_bind,
      orNull_of_getD hgb hn fun b h => (hb b h).read, ok_bind,
      present_of_get hgd fun d h => (hd d h).read, ok_bind, skipIf_getD disabled_eq_of_isEmpty]
    rfl

end

@[simp]
def Assertion.Canonical : Assertion → Prop
  | .status code => code < 2 ^ 16

theorem assertion_canonical {y : Yaml} {a : Assertion} (h : Assertion.deserialize y = .ok a) :
    a.Canonical := by
  unfold Assertion.deserialize at h
  split at h
  case h_1 => simp at h
  case h_3 => simp [invalid] at h
  case h_2 key y rest =>
    split at h
    case h_2 => simp at h
    case h_1 =>
      obtain ⟨code, hc, h⟩ := bind_eq_ok.mp h
      obtain ⟨_, _, h⟩ := bind_eq_ok.mp h
      obtain rfl := Except.ok.inj h
      cases hr : readU16 y
      case none   => simp [hr, invalid] at hc
      case some n =>
        rw [hr] at hc
        exact Except.ok.inj hc ▸ readU16_range hr

theorem reads_assertion {a : Assertion} (h : a.Canonical) :
    Reads Assertion.deserialize a.serialize a := by
  obtain ⟨code⟩ := a
  refine ⟨.mapping (by simp) (by simp), ?_⟩
  rw [Assertion.serialize, Assertion.deserialize, readU16_ofNat h]
  rfl

section

variable {decode : Option Decode} {claim : Option String}

theorem reads_decode (d : Decode) : Reads (variant Decode.names) d.serialize d := by
  cases d
  case base64 => exact ⟨.string _, rfl⟩
  case jwt    => exact ⟨.string _, rfl⟩

theorem optional_string {m : Mapping} {key : String} {o : Option String}
    (h : m.get key = o.map .string) : optional m key readString = .ok o :=
  optional_of_get h (fun _ => rfl) fun _ _ => rfl

theorem optional_text {lib : DeclLib} {m : Mapping} {key : String} {o : Option String}
    (h : m.get key = o.map .string) : optional m key (readText lib key) = .ok o :=
  optional_of_get h (fun _ => rfl) fun _ _ => rfl

-- The extracts differ in the key of what they look for.
theorem deserializeExtract_of_has {m : Mapping} {source var key value : String}
    {extract : String → String → Option Decode → Option String → Extract}
    (hl : m.Has [("from", some (.string source)), ("var", some (.string var)),
      (key, some (.string value)), ("decode", decode.map Decode.serialize),
      ("claim", claim.map .string)]) :
    deserializeExtract m key extract = .ok (extract var value decode claim) := by
  have hget := hl.get
  simp only [List.forall_mem_cons] at hget
  obtain ⟨_, hgv, hgk, hgd, hgc, -⟩ := hget
  have hn (d : Decode) : d.serialize.isNull = false := by cases d <;> rfl
  rw [deserializeExtract, hl.denyUnknown (by simp), ok_bind, field_string hgv, ok_bind,
    field_string hgk, ok_bind, orNull_of_get hgd hn fun d _ => (reads_decode d).read, ok_bind,
    optional_string hgc, ok_bind]
  rfl

theorem reads_serializeExtract {source var key value : String} {e : Extract}
    (hk : key ∉ ["from", "var", "decode", "claim"])
    (h : ∀ m, m.Has [("from", some (.string source)), ("var", some (.string var)),
        (key, some (.string value)), ("decode", decode.map Decode.serialize),
        ("claim", claim.map .string)] → ∀ entries, fields entries = .ok m →
      Extract.deserialize (.mapping entries) = .ok e) :
    Reads Extract.deserialize (serializeExtract source var key value decode claim) e := by
  have hs : serializeExtract source var key value decode claim = .mapping (collect [
      ("from", some (.string source)), ("var", some (.string var)), (key, some (.string value)),
      ("decode", decode.map Decode.serialize), ("claim", claim.map .string)]) := by
    simp [serializeExtract]
  have hn : (["from", "var", key, "decode", "claim"] : List String).Nodup := by
    simp only [List.mem_cons, List.not_mem_nil, not_or] at hk
    simp [hk, Ne.symm hk.left, Ne.symm hk.right.left]
  rw [hs]
  refine reads_mapping hn ?_ fun m hm hl => h m hl _ hm
  simp only [trees_some, trees_map, trees_nil, and_true]
  exact ⟨.string _, .string _, .string _, fun d _ => (reads_decode d).tree, fun s _ => .string s⟩

theorem reads_extract (e : Extract) : Reads Extract.deserialize e.serialize e := by
  cases e
  case body var path decode claim =>
    refine reads_serializeExtract (by simp) fun m hl entries hm => ?_
    have hf : m.get "from" = some (.string "body") := hl.get _ List.mem_cons_self
    rw [Extract.deserialize, Yaml.fields, hm, ok_bind, field_string hf, ok_bind]
    exact deserializeExtract_of_has hl
  case header var name decode claim =>
    refine reads_serializeExtract (by simp) fun m hl entries hm => ?_
    have hf : m.get "from" = some (.string "header") := hl.get _ List.mem_cons_self
    rw [Extract.deserialize, Yaml.fields, hm, ok_bind, field_string hf, ok_bind]
    exact deserializeExtract_of_has hl
  case cookie var name decode claim =>
    refine reads_serializeExtract (by simp) fun m hl entries hm => ?_
    have hf : m.get "from" = some (.string "cookie") := hl.get _ List.mem_cons_self
    rw [Extract.deserialize, Yaml.fields, hm, ok_bind, field_string hf, ok_bind]
    exact deserializeExtract_of_has hl
  case status var =>
    have hs : (Extract.status var).serialize = .mapping (collect [
      ("from", some (.string "status")), ("var", some (.string var))]) := rfl
    rw [hs]
    refine reads_mapping (by simp) (by simp) fun m hm hl => ?_
    have hget := hl.get
    simp only [List.forall_mem_cons] at hget
    obtain ⟨hgf, hgv, -⟩ := hget
    rw [Extract.deserialize, Yaml.fields, hm, ok_bind, field_string hgf, ok_bind]
    have hd : denyUnknown m ["from", "var"] = .ok () := hl.denyUnknown (by simp)
    simp only [hd, field_string hgv, ok_bind]
    rfl

end

theorem variant_op (op : CompareOp) : variant CompareOp.names (.string op.name) = .ok op := by
  cases op <;> rfl

mutual

theorem reads_condition : (cond : Condition) → Reads Condition.deserialize cond.serialize cond
  | .compare left op right => by
    cases right
    case none =>
      refine ⟨.mapping (by simp [entry]) (by simp [entry]), ?_⟩
      simp only [Condition.serialize, entry, Option.toList_none, List.map_nil, List.append_nil,
        Condition.deserialize, condFields, variant_op, ok_bind]
      rfl
    case some s =>
      refine ⟨.mapping (by simp [entry]) (by simp [entry]), ?_⟩
      simp only [Condition.serialize, entry, Option.toList_some, List.map_cons, List.map_nil,
        List.cons_append, List.nil_append, Condition.deserialize, condFields, variant_op, ok_bind]
      rfl
  | .all conditions        => by
    have h := reads_conditions conditions
    refine ⟨.mapping (by simp) (by simpa using h.tree), ?_⟩
    simp only [Condition.serialize, Condition.deserialize, condFields, h.read, ok_bind]
    rfl
  | .any conditions        => by
    have h := reads_conditions conditions
    refine ⟨.mapping (by simp) (by simpa using h.tree), ?_⟩
    simp only [Condition.serialize, Condition.deserialize, condFields, h.read, ok_bind]
    rfl

theorem reads_conditions : (conditions : List Condition) →
    Reads Engine.conditions (.sequence (serializeConditions conditions)) conditions
  | []                 => ⟨.sequence (by simp [serializeConditions]), rfl⟩
  | cond :: conditions => by
    have h := reads_condition cond
    have hl := reads_conditions conditions
    refine ⟨.sequence ?_, ?_⟩
    case refine_1 =>
      cases hl.tree
      case sequence ht => exact List.forall_mem_cons.mpr ⟨h.tree, ht⟩
    case refine_2 =>
      have hi : conditionItems (serializeConditions conditions) = .ok conditions := hl.read
      rw [serializeConditions, Engine.conditions, conditionItems, h.read, ok_bind, hi, ok_bind]
      rfl

end

end Engine
