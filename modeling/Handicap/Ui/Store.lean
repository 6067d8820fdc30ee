import Handicap.Library.Trace

-- The store of the scenario editor: a document, the model of it, and its text.
namespace Ui

inductive BranchSel
  | then
  | else
  | elif (index : ℕ)
  deriving DecidableEq

-- The edits of a document. The values that they carry are those of the language.
inductive Edit (V : Type)
  | setName (value : String)
  | setCookieJar (value : String)
  | setDefaultThinkTime (value : Option V)
  | setNotes (value : Option String)
  | setStepsThinkTime (stepIds : List String) (value : Option V)
  | setVariable (key value : String)
  | setVariableGen (key : String) (spec : V)
  | removeVariable (key : String)
  | addStep (id name : String)
  | addLoopStep (id name childId : String)
  | addStepInLoop (loopId id name : String)
  | setLoopRepeat (loopId : String) (n : ℤ)
  | addIfStep (id name childId : String)
  | setIfCond (ifId : String) (cond : V)
  | setElifCond (ifId : String) (index : ℕ) (cond : V)
  | addStepInBranch (ifId : String) (branch : BranchSel) (id name : String)
  | addLoopInBranch (ifId : String) (branch : BranchSel) (id name childId : String)
  | addIfInLoop (loopId id name childId : String)
  | addElif (ifId childId : String)
  | removeElif (ifId : String) (index : ℕ)
  | addParallelStep (id name branch1Id branch2Id : String)
  | addBranch (parallelId name childId : String)
  | removeBranch (parallelId : String) (index : ℕ)
  | addStepInParallelBranch (parallelId : String) (branchIndex : ℕ) (id name : String)
  | setBranchName (parallelId : String) (branchIndex : ℕ) (name : String)
  | removeStep (stepId : String)
  | moveStep (stepId : String) (toIndex : ℕ)
  | reparentStep (stepId : String) (parentId : Option String) (band : String) (index : ℕ)
  | setStepField (stepId : String) (path : List String) (value : Option V)
  | setStepAssert (stepId : String) (codes : List ℕ)
  | setStepExtract (stepId : String) (extract : List V)
  | renameVariable (oldName newName : String)
  | renameParallelVar (branchName oldName newName : String)
  | insertSteps (afterTopIndex : Option ℕ) (stepsYaml : String)

inductive RenameVarError
  | self
  | invalid
  | shadow
  | collision
  deriving DecidableEq

-- An edit may give up in the middle.
structure Applied (Doc : Type) where
  doc    : Doc
  thrown : Bool

-- The yaml package, the model of a document, and what the store asks of the model. No model is
-- there where the conversion of the document throws.
structure ScenarioLib (Doc Model V : Type) where
  parseDocument   : String → Except String Doc
  stringify       : Doc → String
  toModel         : Doc → Option (Except String Model)
  applyEdit       : Doc → Edit V → Applied Doc
  httpStepIds     : Model → List String
  branchNames     : Model → String → List String
  httpExtract     : Model → String → Option (List V)
  topAncestor     : Model → String → Option ℕ
  renameConflict  : Model → String → String → Option RenameVarError
  renameConflict₂ : Model → String → String → String → Option RenameVarError

structure ScenarioEditorState (Doc Model : Type) where
  doc             : Option Doc
  model           : Option Model
  yamlText        : String
  yamlError       : Option String
  selectedStepId  : Option String
  pendingYamlText : Option String
  renameEpoch     : ℕ
  testRunEpoch    : ℕ

def starterYaml : String :=
  "version: 1\nname: \"Untitled\"\ncookie_jar: auto\nvariables: \x7b\x7d\nsteps: []\n"

-- The white space of a regular expression.
def isJsSpace (c : Char) : Bool :=
  let n := c.toNat
  (0x9 ≤ n && n ≤ 0xD) || (0x2000 ≤ n && n ≤ 0x200A) ||
    n ∈ [0x20, 0xA0, 0x1680, 0x2028, 0x2029, 0x202F, 0x205F, 0x3000, 0xFEFF]

def isVarName (name : String) : Bool :=
  name ≠ "" && name.toList.all fun c => !isJsSpace c && c ∉ ['{', '}', ':']

-- The first of the names branch1, branch2 and so on, from a number on, that is not taken. Among as
-- many numbers as there are names and one more there is one.
def freeBranchName (taken : List String) (n : ℕ) : ℕ → String
  | 0        => s!"branch{n}"
  | fuel + 1 => if s!"branch{n}" ∈ taken then freeBranchName taken (n + 1) fuel else s!"branch{n}"

def defaultBranchName (taken : List String) : String :=
  freeBranchName taken (taken.dedup.length + 1) taken.length

-- The steps that may be taken in the store. Of those that only dispatch the edit of their name
-- there is one.
inductive EditorAction (V : Type)
  | loadFromString (yaml : String)
  | resetEmpty
  | edit (e : Edit V)
  | setStepsThinkTime (stepIds : List String) (value : Option V)
  | renameVariable (oldName newName : String)
  | renameParallelVar (branchName oldName newName : String)
  | addBranch (parallelId childId : String)
  | removeStep (stepId : String)
  | reparentStep (stepId : String) (parentId : Option String) (band : String) (index : ℕ)
  | addStepExtract (stepId : String) (extract : V)
  | insertTemplateSteps (preparedYaml : String)
  | select (id : Option String)
  | setPendingYamlText (text : String)
  | commitPendingYaml
  | clearPendingYaml
  | bumpTestRunEpoch

variable {Doc Model V : Type} (lib : ScenarioLib Doc Model V)

-- Only what the parser throws is caught.
def ScenarioLib.parseScenarioDoc (yamlText : String) : Option (Except String (Doc × Model)) :=
  match lib.parseDocument yamlText with
  | .error e => some (.error e)
  | .ok doc  => (lib.toModel doc).map fun parsed => parsed.map (doc, ·)

namespace ScenarioEditorState

def initial : ScenarioEditorState Doc Model :=
  ⟨none, none, "", none, none, none, 0, 0⟩

variable (s : ScenarioEditorState Doc Model)

-- What has been parsed is taken over.
def accept (parsed : Doc × Model) : ScenarioEditorState Doc Model :=
  { s with
    doc       := some parsed.1
    model     := some parsed.2
    yamlText  := lib.stringify parsed.1
    yamlError := none }

def loadFromString (yaml : String) : ScenarioEditorState Doc Model :=
  match lib.parseScenarioDoc yaml with
  | none              => s
  | some (.error e)   =>
    { s with
      doc := none, model := none, yamlText := yaml, yamlError := some e, selectedStepId := none
      pendingYamlText := none }
  | some (.ok parsed) => { s.accept lib parsed with selectedStepId := none, pendingYamlText := none }

-- The document itself is edited, and stays as it is if it can no longer be parsed.
def dispatch (e : Edit V) : ScenarioEditorState Doc Model :=
  match s.doc, s.yamlError with
  | some doc, none =>
    let applied := lib.applyEdit doc e
    if applied.thrown then
      { s with doc := some applied.doc }
    else
      match lib.parseScenarioDoc (lib.stringify applied.doc) with
      | none              => { s with doc := some applied.doc }
      | some (.error err) => { s with doc := some applied.doc, yamlError := some err }
      | some (.ok parsed) => s.accept lib parsed
  | _, _ => s

-- A copy of the document is edited, and is taken over if it can be parsed.
def transact (e : Edit V) : Option (ScenarioEditorState Doc Model) :=
  match s.doc, s.yamlError with
  | some doc, none =>
    let applied := lib.applyEdit doc e
    if applied.thrown then
      none
    else
      match lib.parseScenarioDoc (lib.stringify applied.doc) with
      | some (.ok parsed) => some (s.accept lib parsed)
      | _                 => none
  | _, _ => none

def setStepsThinkTime (stepIds : List String) (value : Option V) : ScenarioEditorState Doc Model :=
  match s.model with
  | none       => s
  | some model =>
    let filtered := stepIds.filter (· ∈ lib.httpStepIds model)
    if filtered = [] then s else s.dispatch lib (.setStepsThinkTime filtered value)

-- A rename that succeeds is counted.
def rename (conflict : Model → Option RenameVarError) (oldName newName : String) (e : Edit V) :
    Option RenameVarError × ScenarioEditorState Doc Model :=
  match s.doc, s.model with
  | some _, some model =>
    if s.yamlError ≠ none then
      (some .invalid, s)
    else if newName = oldName then
      (some .self, s)
    else if ¬isVarName newName then
      (some .invalid, s)
    else
      match conflict model with
      | some err => (some err, s)
      | none     =>
        match s.transact lib e with
        | none   => (some .invalid, s)
        | some t => (none, { t with renameEpoch := s.renameEpoch + 1 })
  | _, _ => (some .invalid, s)

def renameVariable (oldName newName : String) :
    Option RenameVarError × ScenarioEditorState Doc Model :=
  s.rename lib (lib.renameConflict · oldName newName) oldName newName
    (.renameVariable oldName newName)

def renameParallelVar (branchName oldName newName : String) :
    Option RenameVarError × ScenarioEditorState Doc Model :=
  s.rename lib (lib.renameConflict₂ · branchName oldName newName) oldName newName
    (.renameParallelVar branchName oldName newName)

def addBranch (parallelId childId : String) : ScenarioEditorState Doc Model :=
  let taken := (s.model.map (lib.branchNames · parallelId)).getD []
  s.dispatch lib (.addBranch parallelId (defaultBranchName taken) childId)

def removeStep (stepId : String) : ScenarioEditorState Doc Model :=
  if s.yamlError ≠ none then
    s
  else
    let next := if s.selectedStepId = some stepId then { s with selectedStepId := none } else s
    next.dispatch lib (.removeStep stepId)

def reparentStep (stepId : String) (parentId : Option String) (band : String) (index : ℕ) :
    ScenarioEditorState Doc Model :=
  (s.transact lib (.reparentStep stepId parentId band index)).getD s

-- The model is not replaced by a text that cannot be parsed. There is no next state where the
-- conversion throws.
def commitPendingYaml : Option (ScenarioEditorState Doc Model) :=
  match s.pendingYamlText with
  | none      => some s
  | some text =>
    match lib.parseScenarioDoc text with
    | none              => none
    | some (.error e)   => some { s with yamlError := some e }
    | some (.ok parsed) => some { s.accept lib parsed with pendingYamlText := none }

-- A text that has not been committed is committed first.
def addStepExtract (stepId : String) (extract : V) : ScenarioEditorState Doc Model :=
  match s.commitPendingYaml lib with
  | none      => s
  | some next =>
    if s.pendingYamlText ≠ none ∧ next.yamlError ≠ none then
      next
    else
      match next.model.bind (lib.httpExtract · stepId) with
      | none          => next
      | some extracts => next.dispatch lib (.setStepExtract stepId (extracts ++ [extract]))

def insertTemplateSteps (preparedYaml : String) : ScenarioEditorState Doc Model :=
  let afterTopIndex := s.model.bind fun model => s.selectedStepId.bind (lib.topAncestor model)
  s.dispatch lib (.insertSteps afterTopIndex preparedYaml)

def step : EditorAction V → ScenarioEditorState Doc Model
  | .loadFromString yaml                      => s.loadFromString lib yaml
  | .resetEmpty                               => s.loadFromString lib starterYaml
  | .edit e                                   => s.dispatch lib e
  | .setStepsThinkTime stepIds value          => s.setStepsThinkTime lib stepIds value
  | .renameVariable oldName newName           => (s.renameVariable lib oldName newName).2
  | .renameParallelVar branchName oldName newName =>
    (s.renameParallelVar lib branchName oldName newName).2
  | .addBranch parallelId childId             => s.addBranch lib parallelId childId
  | .removeStep stepId                        => s.removeStep lib stepId
  | .reparentStep stepId parentId band index  => s.reparentStep lib stepId parentId band index
  | .addStepExtract stepId extract            => s.addStepExtract lib stepId extract
  | .insertTemplateSteps preparedYaml         => s.insertTemplateSteps lib preparedYaml
  | .select id                                => { s with selectedStepId := id }
  | .setPendingYamlText text                  => { s with pendingYamlText := some text }
  | .commitPendingYaml                        => (s.commitPendingYaml lib).getD s
  | .clearPendingYaml                         => { s with pendingYamlText := none, yamlError := none }
  | .bumpTestRunEpoch                         => { s with testRunEpoch := s.testRunEpoch + 1 }

def run (actions : List (EditorAction V)) : ScenarioEditorState Doc Model :=
  Trace.run (step lib) initial actions

end ScenarioEditorState

end Ui
