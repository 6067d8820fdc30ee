import Handicap.Engine.Executor
import Handicap.Engine.Theorems.Render

-- What a request refers to.
namespace Engine

-- A leaf of a JSON body that is cast is rendered without its cast.
def leafTemplate (s : String) : String :=
  match parseCastLeaf s with
  | some (bare, _) => bare
  | none           => s

mutual

def Json.templates : Json → List String
  | .string s    => [leafTemplate s]
  | .array items => itemTemplates items
  | .object map  => entryTemplates map
  | .null        => []
  | .bool _      => []
  | .number _    => []

def itemTemplates : List Json → List String
  | []            => []
  | item :: items => item.templates ++ itemTemplates items

def entryTemplates : List (String × Json) → List String
  | []            => []
  | (_, v) :: map => v.templates ++ entryTemplates map

end

def Body.templates : Body → List String
  | .json value  => value.templates
  | .form fields => fields.map Prod.snd
  | .raw text    => [text]

-- All templates that the request of a step is rendered from, in their order.
def Request.templates (request : Request) : List String :=
  request.url :: request.headers.map Prod.snd ++ (request.body.map Body.templates).getD []

def Request.Refers (request : Request) (x : String) : Prop :=
  ∃ t ∈ request.templates, .flow x ∈ pieces 0 t.toList

variable {fromStr : String → Option Json} {ctx : TemplateContext} {s x : String}
variable {unbound : List String}

theorem renderLeafCollecting_snd :
    (renderLeafCollecting fromStr ctx s unbound).2 =
      unbound ++ missingNames ctx (leafTemplate s) := by
  unfold renderLeafCollecting leafTemplate
  cases parseCastLeaf s
  case none => exact renderCollecting_snd
  case some leaf =>
    obtain ⟨bare, cast⟩ := leaf
    cases cast <;> exact renderCollecting_snd

mutual

theorem renderJsonCollecting_snd (v : Json) (unbound) :
    (renderJsonCollecting fromStr ctx v unbound).2 =
      unbound ++ v.templates.flatMap (missingNames ctx) := by
  cases v
  case string s   => simp [renderJsonCollecting, Json.templates, renderLeafCollecting_snd]
  case array l    => simp [renderJsonCollecting, Json.templates, renderItemsCollecting_snd l]
  case object map => simp [renderJsonCollecting, Json.templates, renderEntriesCollecting_snd map]
  all_goals simp [renderJsonCollecting, Json.templates]

theorem renderItemsCollecting_snd (l : List Json) (unbound) :
    (renderItemsCollecting fromStr ctx l unbound).2 =
      unbound ++ (itemTemplates l).flatMap (missingNames ctx) := by
  cases l
  case nil => simp [renderItemsCollecting, itemTemplates]
  case cons v l =>
    simp [renderItemsCollecting, itemTemplates, renderItemsCollecting_snd l,
      renderJsonCollecting_snd v]

theorem renderEntriesCollecting_snd (l : List (String × Json)) (unbound) :
    (renderEntriesCollecting fromStr ctx l unbound).2 =
      unbound ++ (entryTemplates l).flatMap (missingNames ctx) := by
  cases l
  case nil => simp [renderEntriesCollecting, entryTemplates]
  case cons e l =>
    obtain ⟨k, v⟩ := e
    simp [renderEntriesCollecting, entryTemplates, renderEntriesCollecting_snd l,
      renderJsonCollecting_snd v]

end

variable {request : Request} {dummyEnv : Table String String} {index : String → Option ℕ}
variable {count i : ℕ}

-- Without variables, a name that the environment has is missing where a template has it as that of
-- a variable.
theorem mem_missingNames_dummy (hx : (dummyEnv.lookup x).isSome) :
    x ∈ missingNames ⟨∅, dummyEnv, 0, 0, some 0⟩ s ↔ .flow x ∈ pieces 0 s.toList := by
  rw [missingNames, List.mem_flatMap]
  constructor
  case mp =>
    rintro ⟨p, hp, hm⟩
    cases p
    case flow name => simp_all [Piece.missing]
    case system name default =>
      exfalso
      rw [Piece.missing] at hm
      split_ifs at hm with hs
      case pos => cases hm
      case neg =>
        cases List.mem_singleton.mp hm
        refine hs ?_
        unfold TemplateContext.system
        split
        case h_4 =>
          obtain ⟨v, hv⟩ := Option.isSome_iff_exists.mp hx
          rw [hv]
          rfl
        all_goals rfl
    all_goals cases hm
  case mpr => exact fun h => ⟨_, h, by simp [Piece.missing]⟩

theorem mem_requestFlowRefs (h : ∀ x, (index x).isSome → (dummyEnv.lookup x).isSome) :
    i ∈ requestFlowRefs fromStr request dummyEnv index count ↔
      i < count ∧ ∃ x, index x = some i ∧ request.Refers x := by
  have hu : requestFlowRefs fromStr request dummyEnv index count =
      (List.range count).filter fun i =>
        i ∈ (request.templates.flatMap
          (missingNames ⟨∅, dummyEnv, 0, 0, some 0⟩)).filterMap index := by
    simp only [requestFlowRefs]
    refine congrArg
      (fun l : List String => (List.range count).filter fun i => i ∈ l.filterMap index) ?_
    obtain ⟨method, url, headers, body⟩ := request
    rcases body with _ | (value | fields | text) <;>
      simp [Request.templates, Body.templates, renderCollecting_snd, renderJsonCollecting_snd,
        List.flatMap_def, Function.comp_def]
  rw [hu]
  simp only [List.mem_filter, List.mem_range, decide_eq_true_eq, List.mem_filterMap,
    List.mem_flatMap, Request.Refers]
  refine and_congr_right fun _ => exists_congr fun x => ?_
  rw [and_comm]
  refine and_congr_right fun hx => exists_congr fun t => and_congr_right fun _ => ?_
  exact mem_missingNames_dummy (h x (by simp [hx]))

-- The timeout of a step is that of its request, unless it is zero.
theorem buildRequest_timeout {lib : Libraries} {ctx : TemplateContext} {step : HttpStep}
    {request : HttpRequest} (h : buildRequest lib ctx step = .ok request) :
    request.timeout = step.timeoutSeconds.filter (0 < ·) := by
  have ⟨url, _, h⟩ := Guard.bind_eq_ok.mp h
  have ⟨headers, _, h⟩ := Guard.bind_eq_ok.mp h
  cases hb : step.request.body
  case none =>
    rw [hb] at h
    exact Except.ok.inj h ▸ rfl
  case some body =>
    rw [hb] at h
    have ⟨body, _, h⟩ := Guard.bind_eq_ok.mp h
    exact Except.ok.inj h ▸ rfl

-- Libraries that refuse everything but headers.
def plainLibraries : Libraries :=
  { fromStr     := fun _ => none
    fromSlice   := fun _ => .error ""
    print       := fun _ => ""
    debug       := id
    jsonPath    := fun _ => none
    base64      := fun _ _ => none
    regex       := fun _ => none
    parseF64    := fun _ => none
    headerName  := .ok
    headerValue := .ok }

end Engine
