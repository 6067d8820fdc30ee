import Handicap.Library.Trace
import Handicap.Monitor.Config

-- The groups of a board in its editor.
namespace Ui

open Monitor

def mirrored (p : PanelConfig) (g : CheckGroup) : PanelConfig :=
  { p with
    scenarioId      := g.scenarioId
    environmentId   := g.environmentId
    intervalSeconds := g.intervalSeconds }

def newPanel (id : String) : PanelConfig :=
  { id }

def addGroup (cfg : BoardConfig) (groupId panelId : String) : BoardConfig :=
  let base := newPanel panelId
  let group : CheckGroup :=
    { id              := groupId
      scenarioId      := base.scenarioId
      environmentId   := base.environmentId
      intervalSeconds := base.intervalSeconds }
  { cfg with
    groups := cfg.groups ++ [group]
    panels := cfg.panels ++ [{ base with groupId := some group.id }] }

-- The position behind the last panel of a group, from a position on.
def behind (groupId : String) : List PanelConfig → Option ℕ
  | []      => none
  | p :: ps =>
    match behind groupId ps with
    | some n => some (n + 1)
    | none   => if p.groupId = some groupId then some 1 else none

def addPanelToGroup (cfg : BoardConfig) (groupId panelId : String) : BoardConfig :=
  let base := { newPanel panelId with groupId := some groupId }
  let panel :=
    match cfg.groups.find? (·.id = groupId) with
    | some g => mirrored base g
    | none   => base
  let pos := (behind groupId cfg.panels).getD cfg.panels.length
  { cfg with panels := cfg.panels.insertIdx pos panel }

def updateGroup (cfg : BoardConfig) (next : CheckGroup) : BoardConfig :=
  { cfg with
    groups := cfg.groups.map fun g => if g.id = next.id then next else g
    panels := cfg.panels.map fun p => if p.groupId = some next.id then mirrored p next else p }

def setPanelStep (p : PanelConfig) (stepId : String) : PanelConfig :=
  { p with
    stepId        := some stepId
    latencySource := .step stepId
    conditions    := p.conditions.map ({ · with stepId := stepId })
    displayItems  := p.displayItems.map ({ · with stepId := stepId }) }

-- A group goes with its last panel.
def removePanel (cfg : BoardConfig) (index : ℕ) : BoardConfig :=
  let panels := cfg.panels.eraseIdx index
  match (cfg.panels[index]?).bind (·.groupId) with
  | some gid =>
    if gid ≠ "" ∧ ¬panels.any (·.groupId = some gid) then
      { cfg with panels, groups := cfg.groups.filter (·.id ≠ gid) }
    else
      { cfg with panels }
  | none     => { cfg with panels }

def removeGroup (cfg : BoardConfig) (groupId : String) : BoardConfig :=
  { cfg with
    groups := cfg.groups.filter (·.id ≠ groupId)
    panels := cfg.panels.filter (·.groupId ≠ some groupId) }

inductive GroupEdit
  | addGroup (groupId panelId : String)
  | addPanelToGroup (groupId panelId : String)
  | updateGroup (next : CheckGroup)
  | setPanelStep (index : ℕ) (stepId : String)
  | removePanel (index : ℕ)
  | removeGroup (groupId : String)

def editGroups (cfg : BoardConfig) : GroupEdit → BoardConfig
  | .addGroup groupId panelId        => addGroup cfg groupId panelId
  | .addPanelToGroup groupId panelId => addPanelToGroup cfg groupId panelId
  | .updateGroup next                => updateGroup cfg next
  | .setPanelStep index stepId       =>
    { cfg with panels := cfg.panels.modify index (setPanelStep · stepId) }
  | .removePanel index               => removePanel cfg index
  | .removeGroup groupId             => removeGroup cfg groupId

end Ui
