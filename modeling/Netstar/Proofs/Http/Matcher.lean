import Mathlib.Data.List.Forall2
import Mathlib.Data.List.Infix
import Mathlib.Data.List.Nodup
import Mathlib.Data.List.TakeWhile
import Netstar.Proofs.Http.UrlDecode
import Netstar.Spec.Http.Matcher

/-!
# `Netstar.Proofs.Http.Matcher`: which rule a url is dispatched to

The matchers of a rule walk over the url. Every position that they reach is the end of the url or
the position of a slash, and this makes the end test exact: a character that is left over would be a
slash at the end. So a rule matches exactly when the url splits loosely for it (`get_of_splits`,
`splits_of_get`).

Two slips remain. A parameter takes the slash of an empty segment, and an empty remainder has no
slash that `operator[]` could pass over.
-/

set_option autoImplicit false

namespace Netstar.Proofs.Http

open Netstar.Spec.Http
open Netstar.Spec.Http.Routes (ruleLoop)

/-! ### Matchers at a position -/

/-- What is left of a url when a matcher starts: nothing, or it begins with a slash. -/
def Headed (s : List UInt8) : Prop := s = [] ∨ s.head? = some slash

/-- The search does not go back. -/
theorem le_of_findLoop {s rest : List UInt8} {it j : Nat} (h : findLoop s rest it = some j) :
    it ≤ j := by
  induction rest generalizing it with
  | nil => cases h
  | cons c rest ih =>
    rw [findLoop] at h
    split at h
    · cases h
      exact Nat.le_refl _
    · exact Nat.le_of_succ_le (ih h)

/-- A string is found where the search starts when it is a prefix of what is there. -/
theorem findString_eq_some_self_iff {url s : List UInt8} {ind : Nat} (hs : s ≠ []) :
    findString url s ind = some ind ↔ s <+: url.drop ind := by
  rw [findString]
  cases hrest : url.drop ind with
  | nil => simp [findLoop, hs]
  | cons c rest =>
    rw [findLoop, ← List.isPrefixOf_iff_prefix]
    split
    case isTrue h => simp [h]
    case isFalse h =>
      refine iff_of_false (fun hfind => ?_) h
      exact absurd (le_of_findLoop hfind) (Nat.not_succ_le_self ind)

/-- `str_matcher::match`. -/
theorem match_str {url cmp : List UInt8} {ind : Nat} (params : Parameters)
    (hcmp : cmp.head? = some slash) (hind : ind ≤ url.length) :
    (cmp <+: url.drop ind ∧ Headed ((url.drop ind).drop cmp.length) →
        Matcher.match url ind params (.str cmp) = (some (cmp.length + ind), params)) ∧
      (∀ ind' params', Matcher.match url ind params (.str cmp) = (some ind', params') →
        ind' = cmp.length + ind ∧ params' = params ∧ cmp <+: url.drop ind ∧
          Headed ((url.drop ind).drop cmp.length)) := by
  have hne : cmp ≠ [] := by
    rintro rfl
    cases hcmp
  have hheaded : cmp.length + ind ≤ url.length →
      ((url.length = cmp.length + ind ∨ url[cmp.length + ind]? = some slash) ↔
        Headed ((url.drop ind).drop cmp.length)) := by
    intro hle
    rw [Headed, List.drop_drop, List.head?_drop, List.drop_eq_nil_iff, Nat.add_comm ind]
    exact or_congr ⟨Nat.le_of_eq, fun h => Nat.le_antisymm h hle⟩ Iff.rfl
  have hlength : cmp <+: url.drop ind → cmp.length + ind ≤ url.length := by
    intro h
    have := h.length_le
    rw [List.length_drop] at this
    omega
  rw [Matcher.match]
  constructor
  · rintro ⟨hbegins, hend⟩
    have hle := hlength hbegins
    rw [if_pos ⟨hle, (findString_eq_some_self_iff hne).mpr hbegins, (hheaded hle).mpr hend⟩]
  · intro ind' params' h
    split at h
    case isTrue hif =>
      obtain ⟨hle, hfind, hend⟩ := hif
      cases h
      exact ⟨rfl, rfl, (findString_eq_some_self_iff hne).mp hfind, (hheaded hle).mp hend⟩
    case isFalse => cases h

/-- `param_matcher::match` for a segment. It may be empty. -/
theorem match_segment {url w rest : List UInt8} {ind : Nat} (name : List UInt8)
    (params : Parameters) (hdrop : url.drop ind = slash :: (w ++ rest)) (hw : slash ∉ w)
    (hrest : Headed rest) :
    Matcher.match url ind params (.param name false) =
      (some (ind + 1 + w.length), params.set name (slash :: w)) := by
  have hlength := congrArg List.length hdrop
  rw [List.length_drop, List.length_cons, List.length_append] at hlength
  have htail : url.drop (ind + 1) = w ++ rest := by
    rw [← List.tail_drop, hdrop, List.tail_cons]
  have hlast : findEndParam url ind false = ind + 1 + w.length := by
    rw [findEndParam, findChar, htail]
    rcases hrest with rfl | hhead
    · rw [List.append_nil, List.idxOf?_eq_none_iff.mpr hw]
      show url.length = _
      rw [List.length_nil] at hlength
      omega
    · obtain ⟨rest, rfl⟩ := List.head?_eq_some_iff.mp hhead
      rw [idxOf?_append_cons rest hw]
      rfl
  rw [Matcher.match, hlast, if_neg (by omega)]
  have htake : (url.drop ind).take (ind + 1 + w.length - ind) = slash :: w := by
    rw [hdrop, show ind + 1 + w.length - ind = w.length + 1 by omega, List.take_succ_cons,
      List.take_left]
  rw [htake]

/-- `param_matcher::match` for the rest of the url. -/
theorem match_entire {url name : List UInt8} {ind : Nat} {params : Parameters} :
    Matcher.match url ind params (.param name true) =
      (some url.length, params.set name (url.drop ind)) := by
  have hlast : findEndParam url ind true = url.length := rfl
  rw [Matcher.match, hlast]
  split
  case isTrue h => rw [if_pos rfl, ← h, List.drop_length]
  case isFalse h =>
    have hlength : (url.drop ind).length ≤ url.length - ind := Nat.le_of_eq List.length_drop
    rw [List.take_of_length_le hlength]

/-- A segment needs a slash. -/
theorem match_segment_nil {url name : List UInt8} {params : Parameters} :
    Matcher.match url url.length params (.param name false) = (none, params) := by
  have hlast : findEndParam url url.length false = url.length := by
    rw [findEndParam, findChar, List.drop_of_length_le (Nat.le_succ _)]
    rfl
  rw [Matcher.match, hlast, if_pos rfl]
  rfl

/-! ### Rules -/

/-- The parameters after pieces have been put in. -/
def setPieces (params : Parameters) (ms : List Matcher) (pieces : List (List UInt8)) : Parameters :=
  (paramPieces ms pieces).foldl (fun params p => params.set p.1 p.2) params

/-- A matcher of the rest of the path stands last. -/
theorem entireLast_cons {m : Matcher} {ms : List Matcher} :
    EntireLast (m :: ms) ↔ (ms = [] ∨ m.isEntire = false) ∧ EntireLast ms := by
  cases ms with
  | nil => simp [EntireLast]
  | cons m' ms => simp [EntireLast]

/-- Pieces begin with slashes. -/
theorem headed_flatten {ms : List Matcher} {pieces : List (List UInt8)}
    (hstr : ∀ cmp, .str cmp ∈ ms → cmp.head? = some slash)
    (h : List.Forall₂ Matcher.LoosePieceOf ms pieces) : Headed pieces.flatten := by
  induction h with
  | nil => exact Or.inl rfl
  | @cons m piece ms pieces hpiece hpieces ih =>
    have htail := ih fun cmp hcmp => hstr cmp (List.mem_cons_of_mem _ hcmp)
    have hhead : piece = [] ∨ piece.head? = some slash := by
      cases m with
      | str cmp =>
        cases hpiece
        exact Or.inr (hstr _ (List.mem_cons_self ..))
      | param name entirePath =>
        cases entirePath with
        | false =>
          obtain ⟨w, rfl, -⟩ := hpiece
          exact Or.inr rfl
        | true => exact hpiece.imp_right fun ⟨w, hw⟩ => by rw [hw]; rfl
    rw [List.flatten_cons]
    rcases hhead with rfl | hhead
    · exact htail
    · exact Or.inr (by rw [List.head?_append, hhead]; rfl)

/-- A url that splits is matched, and the pieces are what the parameters get. -/
theorem matchLoop_of_splits {url : List UInt8} {ms : List Matcher} {pieces : List (List UInt8)}
    {ind : Nat} {params : Parameters} (hind : ind ≤ url.length)
    (hstr : ∀ cmp, .str cmp ∈ ms → cmp.head? = some slash) (hlast : EntireLast ms)
    (h : List.Forall₂ Matcher.LoosePieceOf ms pieces) (hurl : url.drop ind = pieces.flatten) :
    matchLoop url ms ind params = (some url.length, setPieces params ms pieces) := by
  induction h generalizing ind params with
  | nil =>
    have hend : ind = url.length := by
      have := congrArg List.length hurl
      rw [List.length_drop, List.flatten_nil, List.length_nil] at this
      omega
    rw [hend]
    rfl
  | @cons m piece ms pieces hpiece hpieces ih =>
    have hstr' : ∀ cmp, .str cmp ∈ ms → cmp.head? = some slash :=
      fun cmp hcmp => hstr cmp (List.mem_cons_of_mem _ hcmp)
    obtain ⟨hentire, hlast'⟩ := entireLast_cons.mp hlast
    have hheaded := headed_flatten hstr' hpieces
    rw [List.flatten_cons] at hurl
    have hlength := congrArg List.length hurl
    rw [List.length_drop, List.length_append] at hlength
    have hnext : url.drop (piece.length + ind) = pieces.flatten := by
      rw [Nat.add_comm, ← List.drop_drop, hurl, List.drop_left]
    cases m with
    | str cmp =>
      cases hpiece
      have hmatch := (match_str params (hstr _ (List.mem_cons_self ..)) hind).1
        ⟨by rw [hurl]; exact List.prefix_append _ _, by rw [hurl, List.drop_left]; exact hheaded⟩
      rw [matchLoop, hmatch]
      exact ih (by omega) hstr' hlast' hnext
    | param name entirePath =>
      cases entirePath with
      | false =>
        obtain ⟨w, rfl, hw⟩ := hpiece
        have hmatch := match_segment name params hurl hw hheaded
        rw [matchLoop, hmatch]
        rw [List.length_cons] at hlength hnext
        exact ih (by omega) hstr' hlast' (by rw [← hnext]; congr 1; omega)
      | true =>
        -- nothing follows a matcher that takes the rest
        obtain rfl : ms = [] := hentire.resolve_right nofun
        cases hpieces
        rw [List.flatten_nil, List.append_nil] at hurl
        rw [matchLoop, match_entire, hurl]
        rfl

/-- A rule that is matched splits the url. The induction keeps that a slash is next, or nothing. -/
theorem splits_of_matchLoop {url : List UInt8} {ms : List Matcher} {ind ind' : Nat}
    {params params' : Parameters} (hends : url.getLast? ≠ some slash) (hind : ind ≤ url.length)
    (hheaded : Headed (url.drop ind)) (hstr : ∀ cmp, .str cmp ∈ ms → cmp.head? = some slash)
    (hentire : ms.Pairwise fun m m' => m.isEntire = true → m'.name? = none)
    (h : matchLoop url ms ind params = (some ind', params')) (hend : url.length ≤ ind' + 1) :
    EntireLast ms ∧ ∃ pieces, List.Forall₂ Matcher.LoosePieceOf ms pieces ∧
      url.drop ind = pieces.flatten := by
  induction ms generalizing ind params with
  | nil =>
    have hstop : ind = ind' := Option.some.inj (congrArg Prod.fst h)
    subst hstop
    refine ⟨nofun, [], .nil, ?_⟩
    rcases hheaded with hnil | hhead
    · exact hnil
    · -- one character is left over, and it is a slash
      exfalso
      obtain ⟨rest, hrest⟩ := List.head?_eq_some_iff.mp hhead
      have hlength := congrArg List.length hrest
      rw [List.length_drop, List.length_cons] at hlength
      have hnil : rest = [] := List.length_eq_zero_iff.mp (by omega)
      rw [hnil] at hrest
      have hlast : (url.drop ind).getLast? = some slash := by rw [hrest]; rfl
      rw [List.getLast?_drop, if_neg (by omega)] at hlast
      exact hends hlast
  | cons m ms ih =>
    have hstr' : ∀ cmp, .str cmp ∈ ms → cmp.head? = some slash :=
      fun cmp hcmp => hstr cmp (List.mem_cons_of_mem _ hcmp)
    obtain ⟨hm, hentire'⟩ := List.pairwise_cons.mp hentire
    rw [matchLoop] at h
    cases m with
    | str cmp =>
      split at h
      case h_1 => cases h
      case h_2 ind₁ params₁ hmatch =>
      obtain ⟨rfl, rfl, hbegins, hheaded'⟩ :=
        (match_str _ (hstr _ (List.mem_cons_self ..)) hind).2 ind₁ params₁ hmatch
      have hle := hbegins.length_le
      rw [List.length_drop] at hle
      rw [List.drop_drop, Nat.add_comm] at hheaded'
      obtain ⟨hlast, pieces, hpieces, hurl⟩ := ih (by omega) hheaded' hstr' hentire' h
      refine ⟨entireLast_cons.mpr ⟨Or.inr rfl, hlast⟩, cmp :: pieces, .cons rfl hpieces, ?_⟩
      rw [List.flatten_cons, ← hurl, Nat.add_comm, ← List.drop_drop]
      exact List.prefix_append_drop hbegins
    | param name entirePath =>
      cases entirePath with
      | false =>
        rcases hheaded with hnil | hhead
        · have hend' : ind = url.length := Nat.le_antisymm hind (List.drop_eq_nil_iff.mp hnil)
          rw [hend', match_segment_nil] at h
          cases h
        · obtain ⟨rest, hrest⟩ := List.head?_eq_some_iff.mp hhead
          have hsplit : rest.takeWhile (· ≠ slash) ++ rest.dropWhile (· ≠ slash) = rest :=
            List.takeWhile_append_dropWhile
          have hw : slash ∉ rest.takeWhile (· ≠ slash) := by
            intro hmem
            simpa using List.mem_takeWhile_imp hmem
          have hheaded' : Headed (rest.dropWhile (· ≠ slash)) := by
            cases hdrop : rest.dropWhile (· ≠ slash) with
            | nil => exact Or.inl rfl
            | cons c rest' =>
              have hc := List.head?_dropWhile_not (· ≠ slash) rest
              rw [hdrop] at hc
              exact Or.inr (by simpa using hc)
          have hdrop : url.drop ind =
              slash :: (rest.takeWhile (· ≠ slash) ++ rest.dropWhile (· ≠ slash)) := by
            rw [hsplit, hrest]
          rw [match_segment _ _ hdrop hw hheaded'] at h
          have hlength := congrArg List.length hdrop
          rw [List.length_drop, List.length_cons, List.length_append] at hlength
          have hnext : url.drop (ind + 1 + (rest.takeWhile (· ≠ slash)).length) =
              rest.dropWhile (· ≠ slash) := by
            rw [← List.drop_drop, ← List.tail_drop, hdrop, List.tail_cons, List.drop_left]
          obtain ⟨hlast, pieces, hpieces, hurl⟩ :=
            ih (by omega) (by rw [hnext]; exact hheaded') hstr' hentire' h
          refine ⟨entireLast_cons.mpr ⟨Or.inr rfl, hlast⟩, _ :: pieces,
            .cons ⟨_, rfl, hw⟩ hpieces, ?_⟩
          rw [List.flatten_cons, ← hurl, hnext, hdrop]
          rfl
      | true =>
        rw [match_entire] at h
        cases ms with
        | nil =>
          refine ⟨nofun, [url.drop ind], .cons ?_ .nil, by simp⟩
          exact hheaded.imp_right fun hhead =>
            (List.head?_eq_some_iff.mp hhead).imp fun _ => id
        | cons m' ms =>
          -- behind the rest only strings may follow, and there is nothing left for them
          exfalso
          have hname := hm m' (List.mem_cons_self ..) rfl
          cases m' with
          | param name' entirePath' => cases hname
          | str cmp =>
            have hcmp := hstr' cmp (List.mem_cons_self ..)
            change matchLoop url (.str cmp :: ms) url.length _ = _ at h
            rw [matchLoop] at h
            split at h
            case h_1 => cases h
            case h_2 ind₁ params₁ hmatch =>
            obtain ⟨-, -, hbegins, -⟩ := (match_str _ hcmp (Nat.le_refl _)).2 ind₁ params₁ hmatch
            rw [List.drop_length, List.prefix_nil] at hbegins
            rw [hbegins] at hcmp
            cases hcmp

/-- The url splits loosely, and a matcher that takes the rest is the last one. -/
def LooselyMatches (ms : List Matcher) (url : List UInt8) : Prop :=
  EntireLast ms ∧ ∃ pieces, LooselySplits ms url pieces

section
variable {H : Type} {rule : MatchRule H} {params : Parameters}

/-- A rule for which the url splits loosely returns its handler, with the pieces as parameters. -/
theorem get_of_splits {url : List UInt8} {pieces : List (List UInt8)}
    (hrule : RuleOk rule.matchList) (hlast : EntireLast rule.matchList) (h : LooselySplits rule.matchList url pieces) :
    rule.get url params = (some rule.handler, setPieces params rule.matchList pieces) := by
  rw [MatchRule.get, matchLoop_of_splits (Nat.zero_le _) hrule.str_starts hlast h.1 h.2]
  show (if url.length ≤ url.length + 1 then some rule.handler else none, _) = _
  rw [if_pos (Nat.le_succ _)]

/-- For any other rule it returns null. -/
theorem get_of_not {u : RequestPath} (params : Parameters) (hrule : RuleOk rule.matchList)
    (h : ¬LooselyMatches rule.matchList u.url) : (rule.get u.url params).1 = none := by
  rw [MatchRule.get]
  split
  case h_1 => rfl
  case h_2 ind params' hloop =>
    refine if_neg fun hend => h ?_
    obtain ⟨hlast, pieces, hpieces, hurl⟩ := splits_of_matchLoop u.ends (Nat.zero_le _)
      (Or.inr u.starts) hrule.str_starts hrule.entire_last hloop hend
    exact ⟨hlast, pieces, hpieces, hurl⟩

end

section
variable {H : Type} {u : RequestPath}

/-- The loop passes over rules that do not match. -/
theorem ruleLoop_append {before : List (MatchRule H)} (rules : List (MatchRule H))
    (hok : ∀ b ∈ before, RuleOk b.matchList)
    (h : ∀ b ∈ before, ¬LooselyMatches b.matchList u.url) :
    ruleLoop u.url (before ++ rules) .empty = ruleLoop u.url rules .empty := by
  induction before with
  | nil => rfl
  | cons b before ih =>
    have hb := get_of_not .empty (hok b (List.mem_cons_self ..))
      (h b (List.mem_cons_self ..))
    rw [List.cons_append, ruleLoop]
    split
    case h_1 handler params hget =>
      rw [hget] at hb
      cases hb
    case h_2 =>
      exact ih (fun b' hb' => hok b' (List.mem_cons_of_mem _ hb'))
        fun b' hb' => h b' (List.mem_cons_of_mem _ hb')

/-- The loop stops at a rule that matches. -/
theorem ruleLoop_cons {rule : MatchRule H} {after : List (MatchRule H)}
    {pieces : List (List UInt8)} (hrule : RuleOk rule.matchList)
    (hlast : EntireLast rule.matchList) (h : LooselySplits rule.matchList u.url pieces) :
    ruleLoop u.url (rule :: after) .empty =
      (some rule.handler, setPieces .empty rule.matchList pieces) := by
  rw [ruleLoop, get_of_splits hrule hlast h]

/-- The loop returns null, or the handler of a rule with its pieces. -/
theorem ruleLoop_eq {rules : List (MatchRule H)} (hok : ∀ b ∈ rules, RuleOk b.matchList) :
    ruleLoop u.url rules .empty = (none, .empty) ∨
      ∃ rule ∈ rules, ∃ params, ruleLoop u.url rules .empty = (some rule.handler, params) := by
  induction rules with
  | nil => exact Or.inl rfl
  | cons b rules ih =>
    by_cases h : LooselyMatches b.matchList u.url
    · obtain ⟨hlast, pieces, hpieces⟩ := h
      exact Or.inr ⟨b, List.mem_cons_self .., _,
        ruleLoop_cons (hok b (List.mem_cons_self ..)) hlast hpieces⟩
    · have hskip : ruleLoop u.url ([b] ++ rules) .empty = ruleLoop u.url rules .empty :=
        ruleLoop_append _ (by simpa using hok b (List.mem_cons_self ..)) (by simpa using h)
      rw [List.singleton_append] at hskip
      rw [hskip]
      refine (ih fun b' hb' => hok b' (List.mem_cons_of_mem _ hb')).imp_right ?_
      rintro ⟨rule, hrule, params, heq⟩
      exact ⟨rule, List.mem_cons_of_mem _ hrule, params, heq⟩

end

/-! ### Parameters -/

/-- Parameters with different names are found after they have been set. -/
theorem foldl_set {ps : List (List UInt8 × List UInt8)} (params : Parameters)
    (hnodup : (ps.map Prod.fst).Nodup) :
    (∀ p ∈ ps, ps.foldl (fun params p => params.set p.1 p.2) params p.1 = some p.2) ∧
      ∀ key, key ∉ ps.map Prod.fst →
        ps.foldl (fun params p => params.set p.1 p.2) params key = params key := by
  induction ps generalizing params with
  | nil => exact ⟨fun p hp => absurd hp List.not_mem_nil, fun key _ => rfl⟩
  | cons q ps ih =>
    rw [List.map_cons, List.nodup_cons] at hnodup
    obtain ⟨hin, hout⟩ := ih (params.set q.1 q.2) hnodup.2
    constructor
    · intro p hp
      rw [List.foldl_cons]
      rcases List.mem_cons.mp hp with rfl | hp
      · rw [hout p.1 hnodup.1, Parameters.set, Function.update_self]
      · exact hin p hp
    · intro key hkey
      rw [List.map_cons, List.mem_cons, not_or] at hkey
      rw [List.foldl_cons, hout key hkey.2, Parameters.set, Function.update_of_ne hkey.1]

/-- The parameters of a rule have its names. -/
theorem map_fst_paramPieces {ms : List Matcher} {pieces : List (List UInt8)}
    (h : ms.length = pieces.length) :
    (paramPieces ms pieces).map Prod.fst = ms.filterMap Matcher.name? := by
  induction ms generalizing pieces with
  | nil => rfl
  | cons m ms ih =>
    cases pieces with
    | nil => cases h
    | cons piece pieces =>
      have htail := ih (Nat.succ.inj h)
      cases m with
      | str cmp => exact htail
      | param name entirePath => exact congrArg (name :: ·) htail

/-- `operator[]` passes over the slash, so there must be one. -/
theorem index_eq_ok_iff {params : Parameters} {key value : List UInt8}
    (h : params key = some value) : params.index key = .ok (value.drop 1) ↔ value ≠ [] := by
  have hindex : params.index key = substr value 1 := by
    rw [Parameters.index, Parameters.path, h]
    rfl
  rw [hindex, substr]
  cases value with
  | nil => simp
  | cons c value => simp

/-- The value of a parameter is a piece of the path. -/
theorem mem_of_paramPieces {ms : List Matcher} {pieces : List (List UInt8)}
    {p : List UInt8 × List UInt8} (h : p ∈ paramPieces ms pieces) : p.2 ∈ pieces := by
  rw [paramPieces, List.mem_filterMap] at h
  obtain ⟨m, hm, h⟩ := h
  obtain ⟨name, -, rfl⟩ := Option.map_eq_some_iff.mp h
  exact (List.of_mem_zip hm).2

/-- An empty piece is one of a parameter. -/
theorem exists_empty_of_mem {ms : List Matcher} {pieces : List (List UInt8)}
    (hstr : ∀ cmp, .str cmp ∈ ms → cmp.head? = some slash)
    (h : List.Forall₂ Matcher.PieceOf ms pieces) (hmem : [] ∈ pieces) :
    ∃ p ∈ paramPieces ms pieces, p.2 = [] := by
  induction h with
  | nil => cases hmem
  | @cons m piece ms pieces hpiece hpieces ih =>
    have htail := fun hmem => ih (fun cmp hcmp => hstr cmp (List.mem_cons_of_mem _ hcmp)) hmem
    cases m with
    | str cmp =>
      rcases List.mem_cons.mp hmem with hnil | hmem
      · have hcmp := hstr cmp (List.mem_cons_self ..)
        rw [← show piece = cmp from hpiece, ← hnil] at hcmp
        cases hcmp
      · exact htail hmem
    | param name entirePath =>
      rcases List.mem_cons.mp hmem with hnil | hmem
      · exact ⟨(name, piece), List.mem_cons_self .., hnil.symm⟩
      · obtain ⟨p, hp, hnil⟩ := htail hmem
        exact ⟨p, List.mem_cons_of_mem _ hp, hnil⟩

/-- The parameters of a rule are read back when none of its pieces is empty. -/
theorem paramsOf_iff {ms : List Matcher} {pieces : List (List UInt8)} (hms : RuleOk ms)
    (h : List.Forall₂ Matcher.PieceOf ms pieces) :
    ParamsOf ms pieces (setPieces .empty ms pieces) ↔ [] ∉ pieces := by
  have hnames := map_fst_paramPieces h.length_eq
  have hnodup : ((paramPieces ms pieces).map Prod.fst).Nodup := by
    rw [hnames]
    exact hms.names_nodup
  obtain ⟨hin, hout⟩ := foldl_set .empty hnodup
  constructor
  · intro hparams hmem
    obtain ⟨p, hp, hnil⟩ := exists_empty_of_mem hms.str_starts h hmem
    exact (index_eq_ok_iff (hin p hp)).mp (hparams.index p hp) hnil
  · intro hmem
    constructor
    · intro key
      by_cases hkey : key ∈ ms.filterMap Matcher.name?
      · refine iff_of_true ?_ hkey
        rw [← hnames] at hkey
        obtain ⟨p, hp, rfl⟩ := List.mem_map.mp hkey
        rw [setPieces, hin p hp]
        rfl
      · refine iff_of_false ?_ hkey
        rw [← hnames] at hkey
        rw [setPieces, hout key hkey]
        exact Bool.false_ne_true
    · intro p hp
      exact (index_eq_ok_iff (hin p hp)).mpr fun hnil => hmem (hnil ▸ mem_of_paramPieces hp)

/-! ### The first rule -/

/-- A list has no element with a property, or a first one. -/
theorem forall_not_or_first {α : Type} (p : α → Prop) (l : List α) :
    (∀ x ∈ l, ¬p x) ∨
      ∃ before x after, l = before ++ x :: after ∧ (∀ b ∈ before, ¬p b) ∧ p x := by
  classical
  induction l with
  | nil => exact Or.inl fun x hx => absurd hx List.not_mem_nil
  | cons y l ih =>
    by_cases hy : p y
    · exact Or.inr ⟨[], y, l, rfl, fun b hb => absurd hb List.not_mem_nil, hy⟩
    · rcases ih with hnone | ⟨before, x, after, rfl, hbefore, hx⟩
      · exact Or.inl (List.forall_mem_cons.mpr ⟨hy, hnone⟩)
      · exact Or.inr ⟨y :: before, x, after, rfl, List.forall_mem_cons.mpr ⟨hy, hbefore⟩, hx⟩

/-- There is only one first element. -/
theorem first_unique {α : Type} {p : α → Prop} {before before' after after' : List α} {x x' : α}
    (heq : before ++ x :: after = before' ++ x' :: after') (hbefore : ∀ b ∈ before, ¬p b)
    (hbefore' : ∀ b ∈ before', ¬p b) (hx : p x) (hx' : p x') : x = x' := by
  rcases List.append_eq_append_iff.mp heq with ⟨c, rfl, hc⟩ | ⟨c, rfl, hc⟩
  · cases c with
    | nil => exact (List.cons.inj hc).1
    | cons y c =>
      obtain ⟨rfl, -⟩ := List.cons.inj hc
      exact absurd hx (hbefore' x (List.mem_append_right _ (List.mem_cons_self ..)))
  · cases c with
    | nil => exact (List.cons.inj hc).1.symm
    | cons y c =>
      obtain ⟨rfl, -⟩ := List.cons.inj hc
      exact absurd hx' (hbefore x' (List.mem_append_right _ (List.mem_cons_self ..)))

/-- A piece is also a loose piece. -/
theorem loose_of_pieceOf {m : Matcher} {piece : List UInt8} (h : m.PieceOf piece) :
    m.LoosePieceOf piece := by
  cases m with
  | str cmp => exact h
  | param name entirePath =>
    cases entirePath with
    | false =>
      obtain ⟨w, hpiece, -, hw⟩ := h
      exact ⟨w, hpiece, hw⟩
    | true => exact h

/-- A path that splits also does so loosely. -/
theorem looselySplits_of_splits {ms : List Matcher} {url : List UInt8}
    {pieces : List (List UInt8)} (h : Splits ms url pieces) : LooselySplits ms url pieces :=
  ⟨h.1.imp fun _ _ => loose_of_pieceOf, h.2⟩

/-- A path that splits is a candidate. -/
theorem candidate_of_splits {ms : List Matcher} {url : List UInt8} {pieces : List (List UInt8)}
    (h : Splits ms url pieces) : Candidate ms url := Or.inl ⟨pieces, h⟩

/-- So is one that matches loosely. -/
theorem candidate_of_looselyMatches {ms : List Matcher} {url : List UInt8}
    (h : LooselyMatches ms url) : Candidate ms url := Or.inr h

section
variable {H : Type} (t : RouteTable H) (type : OperationType) (u : RequestPath)

/-- When the first candidate fits well, the url is dispatched to it. -/
theorem getHandlerRight_of_fits (hexact : t.routes.getExactMatch type u.url = none)
    (h : FirstFitsWell t.routes type u.url) : GetHandlerRight t.routes type u.url := by
  have hok := t.rules_ok type
  have hresult : t.routes.getHandler type u.url .empty =
      ruleLoop u.url (t.routes.rules type) .empty := by
    rw [Routes.getHandler, hexact]
  rw [FirstFitsWell, hexact] at h
  replace h := h.resolve_left Bool.false_ne_true
  rw [GetHandlerRight, hexact, hresult]
  rcases forall_not_or_first (fun b => Candidate b.matchList u.url) (t.routes.rules type) with
    hnone | ⟨before, rule, after, hrules, hbefore, hrule⟩
  · -- no rule splits the url, not even loosely
    refine Or.inr ⟨fun rule hrule ps hps => hnone rule hrule (candidate_of_splits hps), ?_⟩
    have hskip := ruleLoop_append (u := u) [] hok fun b hb hloose =>
      hnone b hb (candidate_of_looselyMatches hloose)
    rw [List.append_nil] at hskip
    rw [hskip]
    rfl
  · obtain ⟨hlast, pieces, hpieces, hempty⟩ := h before rule after hrules hbefore hrule
    rw [hrules] at hok
    have hbeforeOk := fun b hb => hok b (List.mem_append_left _ hb)
    have hruleOk := hok rule (List.mem_append_right _ (List.mem_cons_self ..))
    refine Or.inl ⟨before, rule, after, pieces, hrules, ?_, hpieces, ?_, ?_⟩
    · exact fun b hb ps hps => hbefore b hb (candidate_of_splits hps)
    · rw [hrules, ruleLoop_append _ hbeforeOk fun b hb hloose =>
        hbefore b hb (candidate_of_looselyMatches hloose),
        ruleLoop_cons hruleOk hlast (looselySplits_of_splits hpieces)]
    · rw [hrules, ruleLoop_append _ hbeforeOk fun b hb hloose =>
        hbefore b hb (candidate_of_looselyMatches hloose),
        ruleLoop_cons hruleOk hlast (looselySplits_of_splits hpieces)]
      exact (paramsOf_iff hruleOk hpieces.1).mpr hempty

/-- When the url is dispatched to the right rule, the first candidate fits well. -/
theorem fits_of_getHandlerRight (hexact : t.routes.getExactMatch type u.url = none)
    (h : GetHandlerRight t.routes type u.url) : FirstFitsWell t.routes type u.url := by
  have hok := t.rules_ok type
  have hnodup := t.handlers_nodup type
  have hresult : t.routes.getHandler type u.url .empty =
      ruleLoop u.url (t.routes.rules type) .empty := by
    rw [Routes.getHandler, hexact]
  rw [GetHandlerRight, hexact, hresult] at h
  refine Or.inr fun before rule after hrules hbefore hrule => ?_
  -- a handler belongs to one rule only
  have hsame : ∀ r ∈ t.routes.rules type, r.handler = rule.handler → r = rule := by
    intro r hr heq
    refine List.inj_on_of_nodup_map hnodup hr ?_ heq
    rw [hrules]
    exact List.mem_append_right _ (List.mem_cons_self ..)
  rw [hrules] at hok
  have hbeforeOk := fun b hb => hok b (List.mem_append_left _ hb)
  have hruleOk := hok rule (List.mem_append_right _ (List.mem_cons_self ..))
  have hskip : ruleLoop u.url (t.routes.rules type) .empty =
      ruleLoop u.url (rule :: after) .empty := by
    rw [hrules]
    exact ruleLoop_append _ hbeforeOk fun b hb hloose =>
      hbefore b hb (candidate_of_looselyMatches hloose)
  rw [hskip] at h
  rcases h with ⟨before', rule', after', pieces, hrules', hbefore', hpieces, hhandler, hparams⟩ |
    ⟨hnone, hnull⟩
  · by_cases hloose : LooselyMatches rule.matchList u.url
    · -- the code stops at this rule too
      obtain ⟨hlast, pieces', hpieces'⟩ := hloose
      rw [ruleLoop_cons hruleOk hlast hpieces'] at hhandler
      have hmem : rule' ∈ t.routes.rules type := by
        rw [hrules']
        exact List.mem_append_right _ (List.mem_cons_self ..)
      obtain rfl := hsame rule' hmem (Option.some.inj hhandler).symm
      rw [ruleLoop_cons hruleOk hlast (looselySplits_of_splits hpieces)] at hparams
      exact ⟨hlast, pieces, hpieces, (paramsOf_iff hruleOk hpieces.1).mp hparams⟩
    · -- the code passes over this rule, and another one has another handler
      exfalso
      obtain ⟨pieces', hpieces'⟩ := hrule.resolve_right hloose
      have hrule' : rule = rule' :=
        first_unique (p := fun r => ∃ ps, Splits r.matchList u.url ps) (hrules.symm.trans hrules')
          (fun b hb ⟨ps, hps⟩ => hbefore b hb (candidate_of_splits hps))
          (fun b hb ⟨ps, hps⟩ => hbefore' b hb ps hps) ⟨pieces', hpieces'⟩ ⟨pieces, hpieces⟩
      have hpass : ruleLoop u.url ([rule] ++ after) .empty = ruleLoop u.url after .empty :=
        ruleLoop_append _ (by simpa using hruleOk) (by simpa using hloose)
      rw [List.singleton_append] at hpass
      rw [hpass, ← hrule'] at hhandler
      have hafterOk := fun b hb => hok b (List.mem_append_right _ (List.mem_cons_of_mem _ hb))
      rcases ruleLoop_eq (u := u) hafterOk with hnull | ⟨r, hr, params, hfound⟩
      · rw [hnull] at hhandler
        cases hhandler
      · rw [hfound] at hhandler
        have hmem : r ∈ t.routes.rules type := by
          rw [hrules]
          exact List.mem_append_right _ (List.mem_cons_of_mem _ hr)
        obtain rfl := hsame r hmem (Option.some.inj hhandler)
        rw [hrules] at hnodup
        have hdup := (List.nodup_append.mp (List.Nodup.of_map _ hnodup)).2.1
        exact (List.nodup_cons.mp hdup).1 hr
  · exfalso
    have hmem : rule ∈ t.routes.rules type := by
      rw [hrules]
      exact List.mem_append_right _ (List.mem_cons_self ..)
    rcases hrule with ⟨pieces, hpieces⟩ | ⟨hlast, pieces, hpieces⟩
    · exact hnone rule hmem pieces hpieces
    · rw [ruleLoop_cons hruleOk hlast hpieces] at hnull
      cases hnull

end

/-- When a url is dispatched to the right rule. -/
theorem getHandler_right_iff {H : Type} (t : RouteTable H) (type : OperationType)
    (u : RequestPath) :
    GetHandlerRight t.routes type u.url ↔ FirstFitsWell t.routes type u.url := by
  cases hexact : t.routes.getExactMatch type u.url with
  | none => exact ⟨fits_of_getHandlerRight t type u hexact, getHandlerRight_of_fits t type u hexact⟩
  | some handler =>
    refine iff_of_true ?_ (Or.inl (by rw [hexact]; rfl))
    rw [GetHandlerRight, Routes.getHandler, hexact]

/-- Routes with one rule: `/a`, a parameter and `/b`. -/
def segmentRoutes : RouteTable Unit where
  routes := ⟨fun _ _ => none,
    fun _ => [⟨[.str [slash, 97], .param (text "p") false, .str [slash, 98]], ()⟩]⟩
  rules_ok := by
    intro _ rule hrule
    obtain rfl := List.mem_singleton.mp hrule
    constructor
    · simp
    · simp [slash]
    · decide
    · decide
  handlers_nodup _ := by simp

/-- `/a//b`. -/
def emptySegment : RequestPath := ⟨[slash, 97, slash, slash, 98], rfl, by decide⟩

/-- The url `/a//b` has no character for the parameter, and yet the rule is matched. -/
theorem not_getHandlerRight_empty_segment :
    ¬GetHandlerRight segmentRoutes.routes .get emptySegment.url := by
  have hresult : (segmentRoutes.routes.getHandler .get emptySegment.url .empty).1 = some () := rfl
  rintro (⟨before, rule, after, pieces, hrules, -, ⟨hpieces, hurl⟩, -⟩ | ⟨-, hnull⟩)
  · have hrule : rule ∈ segmentRoutes.routes.rules .get := by
      rw [hrules]
      exact List.mem_append_right _ (List.mem_cons_self ..)
    obtain rfl := List.mem_singleton.mp hrule
    cases hpieces with
    | cons hstr hpieces =>
      cases hpieces with
      | cons hparam hpieces =>
        cases hpieces with
        | cons hstr' hpieces =>
          cases hpieces
          obtain ⟨w, rfl, hw, -⟩ := hparam
          have hlength := congrArg List.length hurl
          cases hstr
          cases hstr'
          simp only [emptySegment, List.flatten_cons, List.flatten_nil, List.length_append,
            List.length_cons, List.length_nil] at hlength
          exact hw (List.length_eq_zero_iff.mp (by omega))
  · rw [hnull] at hresult
    cases hresult

end Netstar.Proofs.Http
