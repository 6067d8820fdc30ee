import Handicap.Api.Validate
import Handicap.Library.Renaming
import Handicap.Monitor.Check

open Guard Renaming

-- The files that boards are moved with, and what an import of one adds. A file is read as the
-- fields of its JSON.
namespace Monitor

def maxBoards    := 50
def maxItemBytes := 2 * 1024 * 1024

structure BoardIn where
  id     : String
  name   : String
  config : BoardConfig

structure ScenarioIn where
  id   : String
  yaml : String

structure EnvIn where
  id   : String
  name : String
  vars : List (String × String)

structure BundleIn where
  boards       : List BoardIn
  scenarios    : List ScenarioIn
  environments : List EnvIn

structure ValidBoard where
  id       : String
  name     : String
  config   : BoardConfig
  warnings : List String

structure ValidScenario where
  id   : String
  name : String
  yaml : String

structure ValidEnv where
  id   : String
  name : String
  vars : List (String × String)

structure ValidBundle where
  boards       : List ValidBoard
  scenarios    : List ValidScenario
  environments : List ValidEnv

-- What the checks of a file ask beyond those of a board. Where a scenario cannot be read, the line
-- is given if it is known.
structure BundleLib extends ConfigLib where
  isCanonicalUlid : String → Bool
  fromYaml        : String → Except (Option ℕ) Engine.Scenario

def envProblem (name : String) (vars : List (String × String)) : Option String :=
  if trim name = "" then some "이름은 비어 있을 수 없습니다"
  else
    vars.findSome? fun (key, _) =>
      let k := trim key
      if k = "" then some "변수 이름은 비어 있을 수 없습니다"
      else if k.toList.any fun c => Store.isWhiteSpace c || c = '}' || c = ':' then
        some s!"변수 이름 '{key}'에 공백·중괄호·콜론은 쓸 수 없습니다"
      else none

-- The names of the branches of every parallel step are distinct.
mutual

def validateStepBranchNames : Engine.Step → Except String Unit
  | .http _                             => .ok ()
  | .loop _ _ _ body                    => validateParallelBranchNames body
  | .ifStep _ _ _ thenSteps elifs elses => do
    validateParallelBranchNames thenSteps
    validateElifBranchNames elifs
    validateParallelBranchNames elses
  | .parallel _ name branches           => validateBranchNames name [] branches

def validateParallelBranchNames : List Engine.Step → Except String Unit
  | []            => .ok ()
  | step :: steps => do
    validateStepBranchNames step
    validateParallelBranchNames steps

def validateElifBranchNames : List (Engine.Condition × List Engine.Step) → Except String Unit
  | []              => .ok ()
  | (_, body) :: es => do
    validateParallelBranchNames body
    validateElifBranchNames es

def validateBranchNames (name : String) (seen : List String) :
    List (String × List Engine.Step) → Except String Unit
  | []                   => .ok ()
  | (branch, body) :: bs => do
    refuse (branch = "") s!"parallel step \"{name}\": branch name required"
    refuse (branch ∈ seen) s!"parallel step \"{name}\": duplicate branch name \"{branch}\""
    validateParallelBranchNames body
    validateBranchNames name (branch :: seen) bs

end

-- The first http step whose think time is out of range.
def validateScenarioThinkTimes (scenario : Engine.Scenario) : Except String Unit := do
  refuse (scenario.defaultThinkTime.any (!Api.thinkTimeInRange ·))
    "시나리오 기본 think time(default_think_time): min_ms <= max_ms <= 600000 (10분) 이어야 합니다"
  (collectHttpSteps scenario.steps).forM fun h =>
    refuse (h.thinkTime.any (!Api.thinkTimeInRange ·))
      s!"스텝 \"{h.name}\"의 think_time: min_ms <= max_ms <= 600000 (10분) 이어야 합니다"

-- What a panel refers to that its scenario does not have.
def panelWarnings (steps : List String) (n : ℕ) (p : PanelConfig) : List String :=
  match p.stepId with
  | some stepId =>
    if stepId ∈ steps then [] else [s!"칸 {n}: 볼 스텝이 시나리오에 없습니다(점검이 설정 오류로 표시됩니다)"]
  | none        =>
    (match p.latencySource with
      | .step stepId =>
        if stepId ∈ steps then []
        else [s!"칸 {n}: 응답 시간 기준 스텝이 시나리오에 없습니다(점검이 설정 오류로 표시됩니다)"]
      | .total       => []) ++
    (if p.conditions.any (·.stepId ∉ steps) then
      [s!"칸 {n}: 성공 조건이 가리키는 스텝이 시나리오에 없습니다"] else []) ++
    (if p.displayItems.any (·.stepId ∉ steps) then
      [s!"칸 {n}: 화면 표시 항목이 가리키는 스텝이 시나리오에 없습니다"] else [])

def boardWarnings (cfg : BoardConfig) (httpSteps : List (String × List String)) : List String :=
  (cfg.panels.zipIdx 1).flatMap fun p =>
    panelWarnings ((httpSteps.lookup p.1.scenarioId).getD []) p.2 p.1

section

variable (lib : BundleLib) (new : ℕ → ℕ → String)

def checkIds (group : String) (ids : List String) : Except String Unit := do
  let _ ← each (fun i id => refuse (!lib.isCanonicalUlid id)
    s!"ID 형식이 올바르지 않습니다: {group}[{i}].id") 0 ids

def checkDistinct (group : String) (ids : List String) : Except String Unit := do
  let _ ← each (fun i id => refuse (id ∈ ids.take i)
    s!"ID가 중복되었습니다: {group}[{i}].id") 0 ids

def parseScenario (s : ScenarioIn) : Except String (ValidScenario × List String) :=
  match lib.fromYaml s.yaml with
  | .error (some line) => .error s!"시나리오 '{s.id}': YAML 형식이 올바르지 않습니다({line}번째 줄)"
  | .error none        => .error s!"시나리오 '{s.id}': YAML 형식이 올바르지 않습니다"
  | .ok scenario       => do
    let inScenario (m : String) := s!"시나리오 '{scenario.name}': {m}"
    (validateParallelBranchNames scenario.steps).mapError inScenario
    (validateScenarioThinkTimes scenario).mapError inScenario
    return (⟨s.id, scenario.name, s.yaml⟩, (collectHttpSteps scenario.steps).map (·.id))

def refuseSome : Option String → Except String Unit
  | some e => .error e
  | none   => .ok ()

def parseEnv (e : EnvIn) : Except String ValidEnv := do
  let name := trim e.name
  refuseSome ((envProblem e.name e.vars).map fun m => s!"환경 '{name}': {m}")
  return ⟨e.id, name, e.vars⟩

-- Every reference of the panels of a board is in the file.
def checkRefs (scenarioIds envIds : List String) (name : String) (cfg : BoardConfig) :
    Except String Unit := do
  let _ ← each (fun n p => do
    refuse (p.scenarioId ∉ scenarioIds)
      s!"파일 내용이 서로 맞지 않습니다(보드 '{name}' 칸 {n}의 시나리오가 파일에 없습니다)"
    refuse (∃ e ∈ p.environmentId, e ∉ envIds)
      s!"파일 내용이 서로 맞지 않습니다(보드 '{name}' 칸 {n}의 환경이 파일에 없습니다)") 1 cfg.panels

def inBoard {α : Type} (name : String) (x : Except String α) : Except String α :=
  x.mapError fun e => s!"보드 '{trim name}' {e}"

-- The checks of a file in their order, from its ids on. The ids that panels without one are given
-- are numbered by the boards and the panels.
def parseBundle (input : BundleIn) : Except String ValidBundle := do
  refuse (input.boards = []) "가져올 보드가 없습니다"
  refuse (maxBoards < input.boards.length) s!"보드는 한 파일에 {maxBoards}개까지입니다"
  let boardIds    := input.boards.map (·.id)
  let scenarioIds := input.scenarios.map (·.id)
  let envIds      := input.environments.map (·.id)
  checkIds lib "boards" boardIds
  checkIds lib "scenarios" scenarioIds
  checkIds lib "environments" envIds
  checkDistinct "boards" boardIds
  checkDistinct "scenarios" scenarioIds
  checkDistinct "environments" envIds
  input.scenarios.forM fun s =>
    refuse (maxItemBytes < s.yaml.utf8ByteSize) s!"시나리오 '{s.id}': 내용이 너무 큽니다(최대 2MB)"
  input.environments.forM fun e => do
    let name := trim e.name
    refuse (maxItemBytes < (e.vars.map fun v => v.1.utf8ByteSize + v.2.utf8ByteSize).sum)
      s!"환경 '{name}': 값이 너무 큽니다(최대 2MB)"
  let maxRefs := input.boards.length * maxPanels
  refuse (maxRefs < input.scenarios.length ∨ maxRefs < input.environments.length)
    "파일 내용이 서로 맞지 않습니다(시나리오·환경이 보드 칸 수보다 많습니다)"
  let parsed       ← input.scenarios.mapM (parseScenario lib)
  let environments ← input.environments.mapM parseEnv
  let configs      ← input.boards.mapM fun b => do
    inBoard b.name (checkCounts b.config)
    return applyGroupMirror b.config
  let scenarios := parsed.map Prod.fst
  (input.boards.zip configs).forM fun b => checkRefs scenarioIds envIds (trim b.1.name) b.2
  let panels := configs.flatMap (·.panels)
  refuseSome ((scenarios.find? fun s => ¬panels.any (·.scenarioId = s.id)).map fun s =>
    s!"파일 내용이 서로 맞지 않습니다(쓰이지 않는 시나리오 '{s.name}')")
  refuseSome ((environments.find? fun e => ¬panels.any (·.environmentId = some e.id)).map fun e =>
    s!"파일 내용이 서로 맞지 않습니다(쓰이지 않는 환경 '{e.name}')")
  let httpSteps := parsed.map fun s => (s.1.id, s.2)
  let boards ← each (fun n b => do
    let (name, config) ← inBoard b.1.name
      (validateAndNormalize lib.toConfigLib (new n) b.1.name b.2)
    return ⟨b.1.id, name, config, boardWarnings config httpSteps⟩) 0 (input.boards.zip configs)
  return ⟨boards, scenarios, environments⟩

end

-- What is on the machine, as far as an import looks at it.
structure PcBoard where
  id      : String
  name    : String
  enabled : Bool

structure PcEnv where
  id   : String
  name : String
  vars : List (String × String)
  deriving DecidableEq

-- Of the scenarios, the texts of those that are in the file are known.
structure PcSnapshot where
  boards       : List PcBoard
  scenarios    : List (String × String)
  environments : List PcEnv

inductive ResState
  | absent
  | same
  | different
  deriving DecidableEq

structure ResourceInfo where
  id    : String
  name  : String
  state : ResState

structure BoardAnalysis where
  id           : String
  name         : String
  pcName       : Option String
  conflict     : Bool
  «exists»     : Bool
  enabled      : Bool
  scenarios    : List ResourceInfo
  environments : List ResourceInfo
  warnings     : List String

structure AnalysisSummary where
  boards       : ℕ
  conflicts    : ℕ
  scenarios    : ℕ
  environments : ℕ

structure Analysis where
  boards  : List BoardAnalysis
  summary : AnalysisSummary

structure BoardResult where
  id       : String
  name     : String
  action   : String
  warnings : List String

structure Counts where
  added     : ℕ
  updated   : ℕ := 0
  copied    : ℕ := 0
  unchanged : ℕ

structure Renamed where
  kind   : String
  «from» : String
  «to»   : String
  reason : String

structure ImportResult where
  boards       : List BoardResult
  scenarios    : Counts
  environments : Counts
  renamed      : List Renamed

structure AddPlan where
  boards       : List (String × String × BoardConfig)
  scenarios    : List (String × String × String)
  environments : List (String × String × List (String × String))
  result       : ImportResult

section

variable (b : ValidBundle) (pc : PcSnapshot)

def scenarioState (id yaml : String) : ResState :=
  match pc.scenarios.lookup id with
  | none   => .absent
  | some y => if y = yaml then .same else .different

-- Environments are compared by their variables, and not by their names.
def envState (id : String) (vars : List (String × String)) : ResState :=
  match pc.environments.find? (·.id = id) with
  | none   => .absent
  | some e => if e.vars = vars then .same else .different

def scenarioInfo (id : String) : Option ResourceInfo :=
  (b.scenarios.find? (·.id = id)).map fun s => ⟨s.id, s.name, scenarioState pc s.id s.yaml⟩

def envInfo (id : String) : Option ResourceInfo :=
  (b.environments.find? (·.id = id)).map fun e => ⟨e.id, e.name, envState pc e.id e.vars⟩

-- What a panel uses, unless it is there already.
def addInfo (info : String → Option ResourceInfo) (infos : List ResourceInfo) (id : String) :
    List ResourceInfo :=
  if infos.any (·.id = id) then infos else infos ++ (info id).toList

def addEnvironment (infos : List ResourceInfo) (p : PanelConfig) : List ResourceInfo :=
  match p.environmentId with
  | none     => infos
  | some eid => addInfo (envInfo b pc) infos eid

def analyzeBoard (vb : ValidBoard) : BoardAnalysis :=
  let scenarios    :=
    vb.config.panels.foldl (fun infos p => addInfo (scenarioInfo b pc) infos p.scenarioId) []
  let environments := vb.config.panels.foldl (addEnvironment b pc) []
  let pcBoard      := pc.boards.find? (·.id = vb.id)
  { id       := vb.id
    name     := vb.name
    pcName   := pcBoard.map (·.name)
    conflict := pcBoard.isSome || (scenarios ++ environments).any (·.state = .different)
    «exists» := pcBoard.isSome
    enabled  := pcBoard.any (·.enabled)
    scenarios
    environments
    warnings := vb.warnings }

def analyze : Analysis :=
  let boards := b.boards.map (analyzeBoard b pc)
  { boards
    summary :=
      { boards       := boards.length
        conflicts    := (boards.filter (·.conflict)).length
        scenarios    := b.scenarios.length
        environments := b.environments.length } }

-- A name with a number, which is cut so that both fit into a number of characters.
def numberedName (base : String) (maxChars : Option ℕ) (n : ℕ) : String :=
  let suffix := s!" ({n})"
  let trunc  :=
    match maxChars with
    | some m => String.ofList (base.toList.take (m - suffix.length))
    | none   => base
  trunc ++ suffix

-- One of as many numbers as there are names, and one more, is free.
def uniqueName (base : String) (taken : List String) (maxChars : Option ℕ) : String :=
  if base ∉ taken then base
  else (firstFree (numberedName base maxChars) taken (taken.length + 1) 2).getD base

def states (infos : List ResourceInfo) : Table String ResState :=
  infos.foldl (fun t r => t.insert r.id r.state) ∅

def renamedTo (kind base name : String) : List Renamed :=
  if name ≠ base then [⟨kind, base, name, "name_taken"⟩] else []

-- Names for resources, one after another, with the names that are taken then and what has been
-- renamed.
def nameAll (kind : String) (maxChars : Option ℕ) (taken bases : List String) :
    List String × List Renamed :=
  match bases with
  | []            => ([], [])
  | base :: bases =>
    let name := uniqueName base taken maxChars
    let rest := nameAll kind maxChars (name :: taken) bases
    (name :: rest.1, renamedTo kind base name ++ rest.2)

-- Only what the machine does not have is added. Where a board or what it uses differs, nothing is.
def planAdd (a : Analysis) : Except (List BoardAnalysis) AddPlan :=
  let conflicts := a.boards.filter (·.conflict)
  if conflicts ≠ [] then .error conflicts
  else
    let scenStates := states (a.boards.flatMap (·.scenarios))
    let envStates  := states (a.boards.flatMap (·.environments))
    let newEnvs    := b.environments.filter fun e => envStates.lookup e.id = some .absent
    let envNames   := nameAll "environment" none (pc.environments.map (·.name)) (newEnvs.map (·.name))
    let scenarios  := b.scenarios.filter fun s => scenStates.lookup s.id = some .absent
    let boardNames :=
      nameAll "board" (some nameMaxChars) (pc.boards.map (·.name)) (b.boards.map (·.name))
    let unchanged (t : Table String ResState) := (t.toList.filter (·.2 = .same)).length
    .ok
      { boards       := b.boards.zipWith (fun vb name => (vb.id, name, vb.config)) boardNames.1
        scenarios    := scenarios.map fun s => (s.id, s.name, s.yaml)
        environments := newEnvs.zipWith (fun e name => (e.id, name, e.vars)) envNames.1
        result       :=
          { boards       := b.boards.zipWith (fun vb name => ⟨vb.id, name, "added", vb.warnings⟩)
              boardNames.1
            scenarios    := { added := scenarios.length, unchanged := unchanged scenStates }
            environments := { added := newEnvs.length, unchanged := unchanged envStates }
            renamed      := envNames.2 ++ boardNames.2 } }

end

-- The tables that an import reads and writes.
structure StoredBoard where
  id      : String
  name    : String
  config  : BoardConfig
  enabled : Bool

structure StoredScenario where
  id   : String
  name : String
  yaml : String

structure Pc where
  boards       : List StoredBoard
  scenarios    : List StoredScenario
  environments : List PcEnv

-- A row is refused if it clashes with one that is there.
def insertRow {α : Type} (clash : α → α → Bool) (rows : List α) (row : α) : Option (List α) :=
  if rows.any (clash row) then none else some (rows ++ [row])

namespace Pc

variable (pc : Pc)

def snapshot (b : ValidBundle) : PcSnapshot where
  boards       := pc.boards.map fun x => ⟨x.id, x.name, x.enabled⟩
  scenarios    :=
    (pc.scenarios.filter fun x => b.scenarios.any (·.id = x.id)).map fun x => (x.id, x.yaml)
  environments := pc.environments

-- A row with an id that is there, or with a name where names are unique, is refused by the
-- database.
def insertScenario (rows : List StoredScenario) (s : String × String × String) :
    Option (List StoredScenario) :=
  insertRow (fun x y => x.id = y.id) rows ⟨s.1, s.2.1, s.2.2⟩

def insertEnvironment (rows : List PcEnv) (e : String × String × List (String × String)) :
    Option (List PcEnv) :=
  insertRow (fun x y => x.id = y.id || x.name = y.name) rows ⟨e.1, e.2.1, e.2.2⟩

def insertBoard (rows : List StoredBoard) (b : String × String × BoardConfig) :
    Option (List StoredBoard) :=
  insertRow (fun x y => x.id = y.id || x.name = y.name) rows ⟨b.1, b.2.1, b.2.2, false⟩

def apply (plan : AddPlan) : Option Pc := do
  let scenarios    ← plan.scenarios.foldlM insertScenario pc.scenarios
  let environments ← plan.environments.foldlM insertEnvironment pc.environments
  let boards       ← plan.boards.foldlM insertBoard pc.boards
  return ⟨boards, scenarios, environments⟩

-- A failure of the database rolls the transaction back.
inductive Imported
  | added (pc : Pc) (result : ImportResult)
  | conflicts (boards : List BoardAnalysis)
  | failed

def importBundle (b : ValidBundle) : Imported :=
  let snapshot := pc.snapshot b
  match planAdd b snapshot (analyze b snapshot) with
  | .error boards => .conflicts boards
  | .ok plan      =>
    match pc.apply plan with
    | some pc' => .added pc' plan.result
    | none     => .failed

-- What a request with a file leaves of the tables, which an error does not change.
def importFile (lib : BundleLib) (file : BundleIn × (ℕ → ℕ → String)) : Pc :=
  match parseBundle lib file.2 file.1 with
  | .error _ => pc
  | .ok b    =>
    match pc.importBundle b with
    | .added pc' _ => pc'
    | _            => pc

def imports (lib : BundleLib) (files : List (BundleIn × (ℕ → ℕ → String))) : Pc :=
  files.foldl (fun pc file => pc.importFile lib file) pc

end Pc

end Monitor
