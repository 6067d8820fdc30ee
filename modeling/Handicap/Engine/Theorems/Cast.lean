import Handicap.Engine.Cast

-- Which texts the engine casts, and to what.
namespace Engine

variable {c : Char} {«open» close t inner l a b : List Char}

theorem between_eq_some : between «open» close t = some inner ↔ t = «open» ++ inner ++ close := by
  unfold between
  constructor
  case mp =>
    intro h
    by_cases ho : «open».isPrefixOf t
    case neg => simp [ho] at h
    obtain ⟨rest, rfl⟩ := List.isPrefixOf_iff_prefix.mp ho
    rw [if_pos ho, List.drop_left] at h
    by_cases hc : close.isSuffixOf rest
    case neg => simp [hc] at h
    obtain ⟨m, rfl⟩ := List.isSuffixOf_iff_suffix.mp hc
    obtain rfl : m = inner := by simpa [hc] using h
    rw [List.append_assoc]
  case mpr =>
    rintro rfl
    have ho : «open» <+: «open» ++ inner ++ close := ⟨inner ++ close, by simp⟩
    have hc : close <:+ inner ++ close := List.suffix_append ..
    rw [if_pos (List.isPrefixOf_iff_prefix.mpr ho), List.append_assoc, List.drop_left]
    simp [List.isSuffixOf_iff_suffix.mpr hc]

theorem contains_iff (h : l ≠ []) : contains l t ↔ l <:+: t := by
  unfold contains
  cases hc : Text.cut l t
  case none => simpa using Text.cut_eq_none hc h
  case some p => exact iff_of_true rfl ⟨p.1, p.2, (Text.cut_eq_some hc).symm⟩

theorem rsplitOnce_eq_some : rsplitOnce c l = some (a, b) ↔ l = a ++ c :: b ∧ c ∉ b := by
  simp only [rsplitOnce, Option.map_eq_some_iff, Prod.exists, Text.cut_one, Prod.mk.injEq]
  constructor
  case mp =>
    rintro ⟨m, s, ⟨hl, hm⟩, rfl, rfl⟩
    refine ⟨?_, by simpa using hm⟩
    have h := congrArg List.reverse hl
    simpa using h
  case mpr =>
    rintro ⟨rfl, hb⟩
    exact ⟨b.reverse, a.reverse, ⟨by simp, by simpa using hb⟩, by simp, by simp⟩

def Cast.keyword : Cast → String
  | str  => "str"
  | num  => "num"
  | bool => "bool"
  | json => "json"

theorem Cast.ofKeyword_eq_some {keyword : String} {cast : Cast} :
    Cast.ofKeyword keyword = some cast ↔ keyword = cast.keyword := by
  constructor
  case mp =>
    intro h
    unfold Cast.ofKeyword at h
    split at h <;> cases h <;> rfl
  case mpr =>
    rintro rfl
    cases cast <;> rfl

theorem Cast.keyword_inj {cast cast' : Cast} (h : cast.keyword = cast'.keyword) : cast = cast' :=
  Option.some.inj ((ofKeyword_eq_some.2 rfl).symm.trans (ofKeyword_eq_some.2 h))

inductive TokenKind
  | flow
  | env
  deriving DecidableEq

namespace TokenKind

def opening : TokenKind → List Char
  | flow => ['{', '{']
  | env  => ['$', '{']

def closing : TokenKind → List Char
  | flow => ['}', '}']
  | env  => ['}']

-- What the engine reads as the inside of one token.
def Sole : TokenKind → List Char → Prop
  | flow, inner => ¬['{', '{'] <:+: inner ∧ ¬['}', '}'] <:+: inner
  | env, inner  => '{' ∉ inner ∧ '}' ∉ inner ∧ '$' ∉ inner

end TokenKind

theorem soleToken_eq_some : soleToken t = some («open», close, inner) ↔
    ∃ kind : TokenKind, «open» = kind.opening ∧ close = kind.closing ∧
      t = kind.opening ++ inner ++ kind.closing ∧ kind.Sole inner := by
  have hc (l : List Char) : (contains ['{', '{'] l ∨ contains ['}', '}'] l) ↔
      ¬TokenKind.flow.Sole l := by
    rw [contains_iff (by simp), contains_iff (by simp), TokenKind.Sole]
    tauto
  have he (l : List Char) : ('{' ∈ l ∨ '}' ∈ l ∨ '$' ∈ l) ↔ ¬TokenKind.env.Sole l := by
    rw [TokenKind.Sole]
    tauto
  unfold soleToken
  cases hf : between ['{', '{'] ['}', '}'] t
  case some inner' =>
    have ht := between_eq_some.1 hf
    constructor
    case mp =>
      intro h
      by_cases hs : TokenKind.flow.Sole inner'
      case neg => simp [if_pos ((hc inner').mpr hs)] at h
      simp only [if_neg fun h => (hc inner').mp h hs] at h
      cases h
      exact ⟨.flow, rfl, rfl, ht, hs⟩
    case mpr =>
      rintro ⟨kind, rfl, rfl, hk, hs⟩
      cases kind
      case flow =>
        obtain rfl : inner' = inner := by
          have h := ht.symm.trans hk
          simpa [TokenKind.opening, TokenKind.closing] using h
        exact if_neg fun h => (hc inner').mp h hs
      case env => simp [ht, TokenKind.opening] at hk
  case none =>
    have ht (i) : t ≠ ['{', '{'] ++ i ++ ['}', '}'] := by
      intro h
      rw [between_eq_some.2 h] at hf
      cases hf
    cases henv : between ['$', '{'] ['}'] t
    case some inner' =>
      have ht' := between_eq_some.1 henv
      constructor
      case mp =>
        intro h
        by_cases hs : TokenKind.env.Sole inner'
        case neg => simp [if_pos ((he inner').mpr hs)] at h
        simp only [if_neg fun h => (he inner').mp h hs] at h
        cases h
        exact ⟨.env, rfl, rfl, ht', hs⟩
      case mpr =>
        rintro ⟨kind, rfl, rfl, hk, hs⟩
        cases kind
        case flow => exact absurd hk (ht inner)
        case env =>
          obtain rfl : inner' = inner := by
            have h := ht'.symm.trans hk
            simpa [TokenKind.opening, TokenKind.closing] using h
          exact if_neg fun h => (he inner').mp h hs
    case none =>
      simp only [reduceCtorEq, false_iff]
      rintro ⟨kind, rfl, rfl, hk, hs⟩
      cases kind
      case flow => exact ht inner hk
      case env =>
        have h := henv.symm.trans (between_eq_some.2 hk)
        cases h

theorem parseCastLeaf_eq_some {s token : String} {cast : Cast} :
    parseCastLeaf s = some (token, cast) ↔
      ∃ (kind : TokenKind) (name keyword : List Char),
        Text.strip Store.isWhiteSpace s.toList =
          kind.opening ++ (name ++ ':' :: keyword) ++ kind.closing ∧
        ':' ∉ keyword ∧ kind.Sole (name ++ ':' :: keyword) ∧
        Text.strip Store.isWhiteSpace keyword = cast.keyword.toList ∧
        token = .ofList (kind.opening ++ Text.strip Store.isWhiteSpace name ++ kind.closing) := by
  simp only [parseCastLeaf, Option.bind_eq_bind, Option.bind_eq_some_iff, Prod.exists,
    soleToken_eq_some, rsplitOnce_eq_some, Cast.ofKeyword_eq_some, trimmed, Option.some.injEq,
    Prod.mk.injEq, pure]
  constructor
  case mp =>
    rintro ⟨_, _, _, ⟨kind, rfl, rfl, ht, hs⟩, name, keyword, ⟨rfl, hk⟩, _, he, rfl, rfl⟩
    exact ⟨kind, name, keyword, ht, hk, hs, by rw [← he, String.toList_ofList], rfl⟩
  case mpr =>
    rintro ⟨kind, name, keyword, ht, hk, hs, he, rfl⟩
    exact ⟨_, _, _, ⟨kind, rfl, rfl, ht, hs⟩, name, keyword, ⟨rfl, hk⟩, cast,
      by rw [he, String.ofList_toList], rfl, rfl⟩

end Engine
