import Netstar.Spec.Rpc.Negotiation

/-!
# `Netstar.Proofs.Rpc.Negotiation`: when the two ends agree

Two factories for many algorithms agree on the first algorithm of the client that the server has,
because a joined list of names splits into the same names. The exception is the empty list: it is
joined to the empty string, and this string splits into one empty name.

A factory for one algorithm compares the whole string with its name. So it refuses a list that has
its name and others, and the factory on the other side, which looks for the one name in its list,
accepts. `Compatible` leaves out these pairs, and the ends agree exactly on the rest.
-/

set_option autoImplicit false

namespace Netstar.Proofs.Rpc.Negotiation

open Netstar.Spec.Rpc
open Netstar.Spec.Rpc.CompressorFactory

variable {as bs : List AlgoName} {a b : AlgoName}

/-- The first algorithm of the client that the server has. -/
def firstCommon (client server : CompressorFactory) : Option AlgoName :=
  client.algorithms.find? fun a => a ∈ server.algorithms

/-- The algorithm that both ends should use. -/
def commonAlgorithm : Option CompressorFactory → Option CompressorFactory → Option AlgoName
  | some client, some server => firstCommon client server
  | _, _ => none

/-- Both ends have a compressor of the algorithm that they should use, or neither has one. -/
def SameCompressor (common client server : Option AlgoName) : Prop :=
  (∃ algo, common = some algo ∧ client = some algo ∧ server = some algo) ∨
    (client = none ∧ server = none)

/-- The ends agree: on the timeouts, and on the first common algorithm or on none. -/
structure Agree (client : ClientOptions) (server : ServerOptions) (ends : Ends) : Prop where
  timeout : ends.client.timeoutNegotiated = ends.server.timeoutNegotiated
  compressor :
    SameCompressor (commonAlgorithm client.compressorFactory server.compressorFactory)
      ends.client.compressor ends.server.compressor

/-- A factory for one algorithm meets one for many: either the list is only this algorithm, or it
does not have it. The string of an empty list is not the name. -/
def SingleMatches (name : AlgoName) (names : List AlgoName) : Prop :=
  (name ∈ names → names = [name]) ∧ (names = [] → name.bytes ≠ [])

/-- An empty list of algorithms does not meet an algorithm with the empty name. -/
def EmptyMatches (names names' : List AlgoName) : Prop :=
  names = [] → ∀ n ∈ names', n.bytes ≠ []

/-- The pairs of factories on which the ends agree. -/
def Compatible : Option CompressorFactory → Option CompressorFactory → Prop
  | some (.single a), some (.multi bs _) => SingleMatches a bs
  | some (.multi as _), some (.single b) => SingleMatches b as
  | some (.multi as _), some (.multi bs _) => EmptyMatches as bs ∧ EmptyMatches bs as
  | _, _ => True

/-- Algorithms with one name are one algorithm. -/
theorem bytes_injective (h : a.bytes = b.bytes) : a = b := by
  cases a
  cases b
  cases h
  rfl

/-! ### What one end decides -/

/-- The names that the other side hears. -/
def heard (names : List AlgoName) : List SString :=
  ([comma].intercalate (names.map AlgoName.bytes)).splitOn comma

/-- A list that is not empty is heard as it was sent. -/
theorem heard_eq (h : as ≠ []) : heard as = as.map AlgoName.bytes := by
  apply List.splitOn_intercalate
  · intro l hl
    obtain ⟨a, -, rfl⟩ := List.mem_map.mp hl
    exact a.comma_free
  · simpa using h

/-- A name that is not split is its own list. -/
theorem splitOn_bytes (a : AlgoName) : a.bytes.splitOn comma = [a.bytes] :=
  List.splitOn_eq_singleton a.comma_free

/-- The joined list is one name only if it has no other. -/
theorem supported_eq_bytes_iff :
    [comma].intercalate (as.map AlgoName.bytes) = a.bytes ↔
      as = [a] ∨ (as = [] ∧ a.bytes = []) := by
  constructor
  · intro heq
    have hsplit : heard as = [a.bytes] := by rw [heard, heq, splitOn_bytes]
    by_cases hnil : as = []
    · subst hnil
      exact .inr ⟨rfl, heq.symm⟩
    · rw [heard_eq hnil] at hsplit
      obtain ⟨x, hx, hbytes⟩ := List.map_eq_singleton_iff.mp hsplit
      rw [hx, bytes_injective hbytes]
      exact .inl rfl
  · rintro (rfl | ⟨rfl, hempty⟩)
    · simp [List.intercalate]
    · rw [hempty]
      rfl

/-- The factory that takes a name is the one that has it. -/
theorem findSome_negotiateSingle (bs : List AlgoName) (n : SString) :
    (bs.findSome? fun f => negotiateSingle f n) = bs.find? fun f => n = f.bytes := by
  induction bs with
  | nil => rfl
  | cons b bs ih =>
    rw [List.findSome?_cons, List.find?_cons, negotiateSingle, ih]
    by_cases heq : n = b.bytes <;> simp [heq]

/-- A single-algorithm factory takes its own name from the list or nothing. -/
theorem findSome_names (a : AlgoName) (names : List SString) :
    (names.findSome? fun n => negotiateSingle a n) = if a.bytes ∈ names then some a else none := by
  induction names with
  | nil => rfl
  | cons n names ih =>
    rw [List.findSome?_cons, negotiateSingle, ih]
    by_cases heq : n = a.bytes
    · simp [heq]
    · have heq' : a.bytes ≠ n := fun h => heq h.symm
      simp [heq, heq']

/-- A search by name finds the algorithm when the factory has it. -/
theorem find_bytes (bs : List AlgoName) (a : AlgoName) :
    (bs.find? fun f => a.bytes = f.bytes) = if a ∈ bs then some a else none := by
  induction bs with
  | nil => rfl
  | cons b bs ih =>
    rw [List.find?_cons, ih]
    by_cases heq : a = b
    · simp [heq]
    · have hbytes : ¬ a.bytes = b.bytes := fun h => heq (bytes_injective h)
      simp [heq, hbytes]

/-- The server with many algorithms hears the names of a list. -/
theorem server_multi_names (as bs : List AlgoName) (hbs : bs.Nodup) {feature : SString}
    (h : feature.splitOn comma = as.map AlgoName.bytes) :
    (multi bs hbs).negotiate feature true = as.find? fun a => a ∈ bs := by
  show (feature.splitOn comma).findSome? (fun n => bs.findSome? fun f => negotiateSingle f n) = _
  rw [h]
  clear h
  induction as with
  | nil => rfl
  | cons a as ih =>
    rw [List.map_cons, List.findSome?_cons, findSome_negotiateSingle, find_bytes, List.find?_cons]
    by_cases hmem : a ∈ bs
    · simp [hmem]
    · simpa [hmem] using ih

/-- The client with many algorithms hears the names of a list. -/
theorem client_multi_names (as bs : List AlgoName) (has : as.Nodup) {feature : SString}
    (h : feature.splitOn comma = bs.map AlgoName.bytes) :
    (multi as has).negotiate feature false = as.find? fun a => a ∈ bs := by
  show as.findSome? (fun f => (feature.splitOn comma).findSome? fun n => negotiateSingle f n) = _
  rw [h]
  induction as with
  | nil => rfl
  | cons a as ih =>
    have hbytes : a.bytes ∈ bs.map AlgoName.bytes ↔ a ∈ bs := by
      constructor
      · intro hmem
        obtain ⟨b, hb, heq⟩ := List.mem_map.mp hmem
        rwa [← bytes_injective heq]
      · exact fun hmem => List.mem_map_of_mem hmem
    rw [List.findSome?_cons, findSome_names, List.find?_cons]
    by_cases hmem : a ∈ bs
    · simp [hbytes, hmem]
    · rw [if_neg (fun h => hmem (hbytes.mp h))]
      simpa [hmem] using ih (List.nodup_cons.mp has).2

/-! ### The two ends -/

/-- What the two ends have after the frames. -/
theorem negotiateProtocol_eq (client : ClientOptions) (server : ServerOptions) :
    negotiateProtocol client server =
      match client.compressorFactory, server.compressorFactory with
      | some f, some g =>
        ⟨⟨f.negotiate g.supported false, client.sendTimeoutData⟩,
          ⟨g.negotiate f.supported true, client.sendTimeoutData⟩⟩
      | _, _ => ⟨⟨none, client.sendTimeoutData⟩, ⟨none, client.sendTimeoutData⟩⟩ := by
  obtain ⟨cf, timeout⟩ := client
  obtain ⟨sf⟩ := server
  cases cf <;> cases sf <;> cases timeout <;> rfl

/-- The two factories lead to the same compressor. -/
def FactoriesAgree (client server : CompressorFactory) : Prop :=
  SameCompressor (firstCommon client server) (client.negotiate server.supported false)
    (server.negotiate client.supported true)

/-- Two ends that both have the common algorithm, or both have none. -/
theorem sameCompressor_self (algo : Option AlgoName) : SameCompressor algo algo algo := by
  cases algo with
  | none => exact .inr ⟨rfl, rfl⟩
  | some algo => exact .inl ⟨algo, rfl, rfl, rfl⟩

/-- Two single-algorithm factories always agree. -/
theorem agree_single_single (a b : AlgoName) : FactoriesAgree (.single a) (.single b) := by
  show SameCompressor ([a].find? fun a => a ∈ [b]) (negotiateSingle a b.bytes)
    (negotiateSingle b a.bytes)
  by_cases heq : a = b
  · subst heq
    simpa [negotiateSingle] using sameCompressor_self (some a)
  · have hne : ¬ a.bytes = b.bytes := fun h => heq (bytes_injective h)
    have hne' : ¬ b.bytes = a.bytes := fun h => hne h.symm
    exact .inr ⟨if_neg hne', if_neg hne⟩

/-- The factory for one algorithm refuses, or the list is only this algorithm. -/
theorem negotiateSingle_joined (a : AlgoName) (names : List AlgoName) :
    negotiateSingle a ([comma].intercalate (names.map AlgoName.bytes)) =
      if names = [a] ∨ (names = [] ∧ a.bytes = []) then some a else none := by
  rw [negotiateSingle]
  by_cases h : names = [a] ∨ (names = [] ∧ a.bytes = [])
  · rw [if_pos h, if_pos (supported_eq_bytes_iff.mpr h)]
  · rw [if_neg h, if_neg fun heq => h (supported_eq_bytes_iff.mp heq)]

/-- When one end takes `a` if it is in the list, and the other end if it is the whole string, they
take the same exactly if the two conditions are the same. -/
theorem singleMatches_iff (a : AlgoName) (names : List AlgoName) :
    SingleMatches a names ↔ (a ∈ names ↔ names = [a] ∨ (names = [] ∧ a.bytes = [])) := by
  constructor
  · rintro ⟨honly, hempty⟩
    constructor
    · exact fun hmem => .inl (honly hmem)
    · rintro (rfl | ⟨hnil, hbytes⟩)
      · exact List.mem_singleton_self a
      · exact absurd hbytes (hempty hnil)
  · intro hiff
    constructor
    · intro hmem
      rcases hiff.mp hmem with heq | ⟨rfl, -⟩
      · exact heq
      · cases hmem
    · rintro rfl hbytes
      cases hiff.mpr (.inr ⟨rfl, hbytes⟩)

/-- A client with one algorithm agrees with a server with a list exactly when `SingleMatches`. -/
theorem agree_single_multi (a : AlgoName) (bs : List AlgoName) (hbs : bs.Nodup) :
    FactoriesAgree (.single a) (.multi bs hbs) ↔ SingleMatches a bs := by
  have hclient : (single a).negotiate (multi bs hbs).supported false = _ :=
    negotiateSingle_joined a bs
  have hfirst : firstCommon (.single a) (.multi bs hbs) = if a ∈ bs then some a else none := by
    show [a].find? (fun a => a ∈ bs) = _
    rw [List.find?_singleton]
    simp
  have hserver : (multi bs hbs).negotiate (single a).supported true =
      if a ∈ bs then some a else none :=
    (server_multi_names [a] bs hbs (splitOn_bytes a)).trans hfirst
  rw [singleMatches_iff, FactoriesAgree, hfirst, hclient, hserver]
  by_cases hmem : a ∈ bs <;> by_cases honly : bs = [a] ∨ (bs = [] ∧ a.bytes = []) <;>
    simp [hmem, honly, SameCompressor]

/-- A list has one algorithm in common with a list of one. -/
theorem find_mem_singleton (as : List AlgoName) (b : AlgoName) :
    (as.find? fun a => a ∈ [b]) = if b ∈ as then some b else none := by
  induction as with
  | nil => rfl
  | cons a as ih =>
    rw [List.find?_cons, ih]
    by_cases heq : a = b
    · simp [heq]
    · have heq' : ¬ b = a := fun h => heq h.symm
      simp [heq, heq']

/-- A client with a list agrees with a server with one algorithm exactly when `SingleMatches`. -/
theorem agree_multi_single (as : List AlgoName) (has : as.Nodup) (b : AlgoName) :
    FactoriesAgree (.multi as has) (.single b) ↔ SingleMatches b as := by
  have hserver : (single b).negotiate (multi as has).supported true = _ :=
    negotiateSingle_joined b as
  have hfirst : firstCommon (.multi as has) (.single b) = if b ∈ as then some b else none :=
    find_mem_singleton as b
  have hclient : (multi as has).negotiate (single b).supported false =
      if b ∈ as then some b else none :=
    (client_multi_names as [b] has (splitOn_bytes b)).trans hfirst
  rw [singleMatches_iff, FactoriesAgree, hfirst, hclient, hserver]
  by_cases hmem : b ∈ as <;> by_cases honly : as = [b] ∨ (as = [] ∧ b.bytes = []) <;>
    simp [hmem, honly, SameCompressor]

/-- A factory without algorithms has no compressor. -/
theorem negotiate_multi_nil (feature : SString) (isServer : Bool) (hnil : [].Nodup) :
    (multi [] hnil).negotiate feature isServer = none := by
  cases isServer with
  | true =>
    show (feature.splitOn comma).findSome? (fun _ => none) = none
    simp
  | false => rfl

/-- An end with many algorithms that hears an empty list takes the algorithm with the empty name. -/
theorem negotiate_empty_eq_none_iff (names : List AlgoName) (hnames : names.Nodup)
    (isServer : Bool) :
    (multi names hnames).negotiate [] isServer = none ↔ ∀ n ∈ names, n.bytes ≠ [] := by
  have hname : ∀ n : AlgoName, negotiateSingle n [] = none ↔ n.bytes ≠ [] := by
    intro n
    rw [negotiateSingle]
    cases n.bytes <;> simp
  cases isServer with
  | true =>
    show [[]].findSome? (fun n => names.findSome? fun f => negotiateSingle f n) = none ↔ _
    rw [List.findSome?_singleton, List.findSome?_eq_none_iff]
    exact forall₂_congr fun n _ => hname n
  | false =>
    show names.findSome? (fun f => [[]].findSome? fun n => negotiateSingle f n) = none ↔ _
    rw [List.findSome?_eq_none_iff]
    refine forall₂_congr fun n _ => ?_
    rw [List.findSome?_singleton]
    exact hname n

/-- Two factories with lists agree unless the list of one is empty and the other has the empty name.
-/
theorem agree_multi_multi (as bs : List AlgoName) (has : as.Nodup) (hbs : bs.Nodup) :
    FactoriesAgree (.multi as has) (.multi bs hbs) ↔ EmptyMatches as bs ∧ EmptyMatches bs as := by
  by_cases hnil : as = []
  · -- the server hears one empty name, and the client takes nothing
    subst hnil
    have hfirst : firstCommon (.multi [] has) (.multi bs hbs) = none := rfl
    rw [FactoriesAgree, negotiate_multi_nil, hfirst]
    show SameCompressor none none ((multi bs hbs).negotiate [] true) ↔ _
    have hserver := negotiate_empty_eq_none_iff bs hbs true
    simp [SameCompressor, hserver, EmptyMatches]
  · by_cases hnil' : bs = []
    · subst hnil'
      have hfirst : firstCommon (.multi as has) (.multi [] hbs) = none := by
        simp [firstCommon, algorithms]
      rw [FactoriesAgree, negotiate_multi_nil, hfirst]
      show SameCompressor none ((multi as has).negotiate [] false) none ↔ _
      have hclient := negotiate_empty_eq_none_iff as has false
      simp [SameCompressor, hclient, EmptyMatches]
    · have hclient : (multi as has).negotiate (multi bs hbs).supported false =
          firstCommon (.multi as has) (.multi bs hbs) :=
        client_multi_names as bs has (heard_eq hnil')
      have hserver : (multi bs hbs).negotiate (multi as has).supported true =
          firstCommon (.multi as has) (.multi bs hbs) :=
        server_multi_names as bs hbs (heard_eq hnil)
      rw [FactoriesAgree, hclient, hserver]
      exact ⟨fun _ => ⟨fun h => absurd h hnil, fun h => absurd h hnil'⟩,
        fun _ => sameCompressor_self _⟩

/-- The ends agree exactly for the compatible pairs of factories. -/
theorem negotiateProtocol_agree_iff (client : ClientOptions) (server : ServerOptions) :
    Agree client server (negotiateProtocol client server) ↔
      Compatible client.compressorFactory server.compressorFactory := by
  have hagree : Agree client server (negotiateProtocol client server) ↔
      match client.compressorFactory, server.compressorFactory with
      | some f, some g => FactoriesAgree f g
      | _, _ => True := by
    rw [negotiateProtocol_eq]
    obtain ⟨cf, timeout⟩ := client
    obtain ⟨sf⟩ := server
    cases cf with
    | none => exact ⟨fun _ => trivial, fun _ => ⟨rfl, .inr ⟨rfl, rfl⟩⟩⟩
    | some f =>
      cases sf with
      | none => exact ⟨fun _ => trivial, fun _ => ⟨rfl, .inr ⟨rfl, rfl⟩⟩⟩
      | some g => exact ⟨fun h => h.compressor, fun h => ⟨rfl, h⟩⟩
  rw [hagree]
  obtain ⟨cf, timeout⟩ := client
  obtain ⟨sf⟩ := server
  rcases cf with _ | ⟨a⟩ | ⟨as, has⟩
  · exact Iff.rfl
  · rcases sf with _ | ⟨b⟩ | ⟨bs, hbs⟩
    · exact Iff.rfl
    · exact ⟨fun _ => trivial, fun _ => agree_single_single a b⟩
    · exact agree_single_multi a bs hbs
  · rcases sf with _ | ⟨b⟩ | ⟨bs, hbs⟩
    · exact Iff.rfl
    · exact agree_multi_single as has b
    · exact agree_multi_multi as bs has hbs

/-- The name `LZ4`. -/
def lz4 : AlgoName := ⟨[76, 90, 52], by decide⟩

/-- Another name. -/
def zstd : AlgoName := ⟨[90, 83, 84, 68], by decide⟩

/-- A client with the factory of `LZ4` and a server with a list of two: the server compresses, and
the client does not. -/
theorem negotiateProtocol_single_client_disagrees :
    ¬ Agree ⟨some (.single lz4), false⟩ ⟨some (.multi [lz4, zstd] (by decide))⟩
      (negotiateProtocol ⟨some (.single lz4), false⟩ ⟨some (.multi [lz4, zstd] (by decide))⟩) := by
  intro h
  have hclient : (negotiateProtocol ⟨some (.single lz4), false⟩
      ⟨some (.multi [lz4, zstd] (by decide))⟩).client.compressor = none := by decide
  have hserver : (negotiateProtocol ⟨some (.single lz4), false⟩
      ⟨some (.multi [lz4, zstd] (by decide))⟩).server.compressor = some lz4 := by decide
  rcases h.compressor with ⟨algo, -, hsome, -⟩ | ⟨-, hnone⟩
  · rw [hclient] at hsome
    cases hsome
  · rw [hserver] at hnone
    cases hnone

end Netstar.Proofs.Rpc.Negotiation
