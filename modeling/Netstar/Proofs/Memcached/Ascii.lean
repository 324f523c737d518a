import Netstar.Proofs.Memcached.Flight
import Netstar.Spec.Memcached.Ascii

/-!
# `Netstar.Proofs.Memcached.Ascii`: when the values of replies are right

`Faithful` is the invariant of an item that a client can find: its prefix is made of the flags that
were told for its key and of digits that count its data, and its data is what was told. A store makes
such an item if its texts fit. `incr` and `decr` take the old prefix for the new data, so the item
stays faithful only if the length stays.
-/

set_option autoImplicit false

namespace Netstar.Proofs.Memcached

open Netstar.Lib
open Netstar.Spec.Memcached

variable {hash : Bytes → UInt64} {s s' : Cache} {a b : Nat} {it old : Item}
  {held leaked : List Nat} {insertion : Insertion} {answer : SlabAnswer} {key : Bytes}

/-! ### References of one reply -/

/-- The reply gives all its references back. -/
theorem releaseAll_spec {items : List Nat} (h : Inv s (items ++ held) leaked s.table [])
    (hlinked : ∀ a ∈ items, a ∈ s.table) :
    ∃ s', items.foldlM Cache.release s = .ok s' ∧ Inv s' held leaked s'.table [] ∧
      item s' = item s ∧ s'.table = s.table := by
  induction items generalizing s with
  | nil => exact ⟨s, rfl, h, rfl, rfl⟩
  | cons a items ih =>
    have ha := hlinked a List.mem_cons_self
    obtain ⟨s₁, hok, hinv, hsame, hkeep, -⟩ := h.release
    have hitem : item s₁ = item s := by
      funext b
      exact hkeep b (.inr ha)
    rw [← hsame.table] at hinv
    obtain ⟨s₂, hok₂, hinv₂, hitem₂, htable₂⟩ := ih hinv (by
      intro b hb
      rw [hsame.table]
      exact hlinked b (List.mem_cons_of_mem a hb))
    refine ⟨s₂, ?_, hinv₂, hitem₂.trans hitem, htable₂.trans hsame.table⟩
    rw [List.foldlM_cons, hok, ok_bind]
    exact hok₂

/-- The linked items with a key can take as many references as the keys have of it. -/
def Holds (hash : Bytes → UInt64) (s : Cache) (held : List Nat) (keys : List Bytes) : Prop :=
  ∀ key ∈ keys, ∀ a ∈ s.table, ∀ it, item s a = some it → it.hasKey hash key = true →
    held.count a + keys.count key ≤ 65534

/-- Looking up the first key leaves the session's facts about the rest of the keys in place. -/
theorem Holds.tail {keys : List Bytes} (h : Holds hash s held (key :: keys))
    (hitem : item s' = item s) (htable : s'.table = s.table) : Holds hash s' held keys := by
  intro key' hkey' a ha it hit hhas
  rw [htable] at ha
  rw [hitem] at hit
  have := h key' (List.mem_cons_of_mem key hkey') a ha it hit hhas
  have := @List.count_le_count_cons _ _ key' key keys
  omega

/-- The item of the first key takes a reference. -/
theorem Holds.cons {keys : List Bytes} (h : Holds hash s held (key :: keys)) (ha : a ∈ s.table)
    (hit : item s a = some it) (hkey : it.hasKey hash key = true) (hitem : item s' = item s)
    (htable : s'.table = s.table) : Holds hash s' (a :: held) keys := by
  intro key' hkey' b hb it' hit' hhas
  rw [htable] at hb
  rw [hitem] at hit'
  have hle := h key' (List.mem_cons_of_mem key hkey') b hb it' hit' hhas
  by_cases hba : b = a
  · -- one item has one key
    subst hba
    rw [hit] at hit'
    cases hit'
    have heq : key' = key := (hasKey_iff.mp hhas).2.symm.trans (hasKey_iff.mp hkey).2
    subst heq
    rw [List.count_cons_self] at hle ⊢
    omega
  · rw [List.count_cons_of_ne (Ne.symm hba)]
    have := @List.count_le_count_cons _ _ key' key keys
    omega

/-- Nothing is held before the reply. -/
theorem holds_of_count {keys : List Bytes} (h : ∀ key, keys.count key ≤ 65534) :
    Holds hash s [] keys := by
  intro key _ a _ it _ _
  rw [List.count_nil, Nat.zero_add]
  exact h key

/-- `get` of all keys: the reply holds linked items with these keys. -/
theorem getItems_spec {keys : List Bytes} (h : Inv s held leaked s.table [])
    (hholds : Holds hash s held keys) :
    ∃ s' items, s.getItems hash keys = .ok (s', items) ∧
      Inv s' (items ++ held) leaked s'.table [] ∧ item s' = item s ∧ s'.table = s.table ∧
      ∀ a ∈ items, a ∈ s.table ∧ ∃ it, item s a = some it ∧ ∃ key ∈ keys, it.hasKey hash key = true := by
  -- Each key that is found adds one reference, so the induction carries the held items along.
  induction keys generalizing s held with
  | nil => exact ⟨s, [], rfl, h, rfl, rfl, fun a ha => nomatch ha⟩
  | cons key keys ih =>
    cases hfind : s.find hash key with
    | none =>
      have hget : s.get hash key =
          .ok ({ s with stats.getMisses := s.stats.getMisses + 1 }, none) := by
        rw [Cache.get, hfind]
      have hinv : Inv { s with stats.getMisses := s.stats.getMisses + 1 } held leaked s.table [] :=
        h.of_stats _
      obtain ⟨s', items, hok, hinv', hitem, htable, hitems⟩ := ih hinv (hholds.tail rfl rfl)
      refine ⟨s', items, ?_, hinv', hitem, htable, ?_⟩
      · rw [Cache.getItems, hget, ok_bind]
        show (Cache.getItems _ _ _ >>= _) = _
        rw [hok]
        rfl
      · intro a ha
        obtain ⟨hmem, it, hit, key', hkey', hhas⟩ := hitems a ha
        exact ⟨hmem, it, hit, key', List.mem_cons_of_mem key hkey', hhas⟩
    | some a =>
      obtain ⟨ha, it, hit, hkey⟩ := find_some hfind
      have hinv : Inv { s with stats.getHits := s.stats.getHits + 1 } held leaked s.table [] :=
        h.of_stats _
      have hlt : held.count a < 65534 := by
        have := hholds key List.mem_cons_self a ha it hit hkey
        rw [List.count_cons_self] at this
        omega
      obtain ⟨s₁, hadd, hinv₁, hitem₁, hsame⟩ := hinv.addRef ha hlt
      have hget : s.get hash key = .ok (s₁, some a) := by
        rw [Cache.get, hfind]
        simp only
        rw [hadd]
        rfl
      rw [← hsame.table] at hinv₁
      obtain ⟨s', items, hok, hinv', hitem, htable, hitems⟩ :=
        ih hinv₁ (hholds.cons ha hit hkey hitem₁ hsame.table)
      refine ⟨s', a :: items, ?_, ?_, hitem.trans hitem₁, htable.trans hsame.table, ?_⟩
      · rw [Cache.getItems, hget, ok_bind]
        show (s₁.getItems hash keys >>= _) = _
        rw [hok]
        rfl
      · exact hinv'.perm List.perm_middle
      · intro b hb
        rcases List.mem_cons.mp hb with rfl | hb
        · exact ⟨ha, it, hit, key, List.mem_cons_self, hkey⟩
        · obtain ⟨hmem, it', hit', key', hkey', hhas⟩ := hitems b hb
          rw [hsame.table] at hmem
          rw [hitem₁] at hit'
          exact ⟨hmem, it', hit', key', List.mem_cons_of_mem key hkey', hhas⟩

/-! ### What a command writes -/

/-- A command that stores its data. -/
structure StoresData (hash : Bytes → UInt64) (s : Cache) (answer : SlabAnswer) (clock : Clock)
    (c : Command) (call : CacheCall) (p : StoreParams) : Prop where
  params : AsciiSession.paramsOf c = some p
  overrides : ∀ q ∈ s.overrides hash (.call call), q.2 = prepareInsertion clock p ∧
    s.find hash p.key = some q.1
  creates : ∀ i ∈ s.creates hash answer (.call call), i = prepareInsertion clock p ∧
    s.find hash p.key = none
  tell : ∀ told, c.tell told = Function.update told p.key (some ⟨p.flags, p.data⟩)

/-- A command that counts. -/
structure Counts (hash : Bytes → UInt64) (s : Cache) (answer : SlabAnswer) (c : Command)
    (call : CacheCall) (key : Bytes) (f : UInt64 → UInt64) (g : Nat → Nat) : Prop where
  params : AsciiSession.paramsOf c = none
  agree : ∀ v, (f v).toNat = g v.toNat
  overrides : s.overrides hash (.call call) = s.counts hash key f
  creates : s.creates hash answer (.call call) = none
  tell : ∀ told, c.tell told = Function.update told key ((told key).map (Told.count g))

/-- A fresh insertion is the one asked for, and its key has no item yet. -/
theorem fresh_mem {i : Insertion} (h : i ∈ s.fresh hash answer insertion) :
    i = insertion ∧ s.find hash insertion.key = none := by
  rw [Cache.fresh] at h
  split at h
  · rename_i hfresh
    cases h
    exact ⟨rfl, Option.isNone_iff_eq_none.mp hfresh.1⟩
  · cases h

/-- The override made of a lookup carries the insertion and the item that the lookup found. -/
theorem map_find_mem {x : Option Nat} {q : Nat × Insertion} (h : q ∈ x.map (·, insertion)) :
    q.2 = insertion ∧ x = some q.1 := by
  obtain ⟨a, hx, rfl⟩ := Option.map_eq_some_iff.mp h
  exact ⟨rfl, hx⟩

/-- The commands that write items are of these two kinds. -/
theorem command_cases {clock : Clock} {c : Command} {call : CacheCall}
    (h : AsciiSession.callOf clock c = some call) :
    (∃ p, StoresData hash s answer clock c call p) ∨
      ∃ key f g, Counts hash s answer c call key f g := by
  cases c with
  | set p =>
    cases h
    exact .inl ⟨p, rfl, fun q hq => map_find_mem hq, fun i hi => fresh_mem hi, fun _ => rfl⟩
  | add p =>
    cases h
    exact .inl ⟨p, rfl, (fun q hq => nomatch hq), fun i hi => fresh_mem hi, fun _ => rfl⟩
  | replace p =>
    cases h
    exact .inl ⟨p, rfl, fun q hq => map_find_mem hq, (fun i hi => nomatch hi), fun _ => rfl⟩
  | cas p version =>
    cases h
    refine .inl ⟨p, rfl, ?_, (fun i hi => nomatch hi), fun _ => rfl⟩
    intro q hq
    obtain ⟨hdata, hfilter⟩ := map_find_mem hq
    exact ⟨hdata, (Option.filter_eq_some_iff.mp hfilter).1⟩
  | incr key delta =>
    cases h
    exact .inr ⟨key, _, _, rfl, (fun v => UInt64.toNat_add v delta), rfl, rfl, fun _ => rfl⟩
  | decr key delta =>
    cases h
    exact .inr ⟨key, _, _, rfl, (sub_min_toNat · delta), rfl, rfl, fun _ => rfl⟩
  | get keys => cases h
  | gets keys => cases h
  | delete key => cases h
  | flushAll expiration => cases h
  | version => cases h

/-! ### Faithful items -/

/-- A client that finds the item gets what was told: the flags, the data and the length of the data. -/
def Faithful (hash : Bytes → UInt64) (told : Bytes → Option Told) (it : Item) : Prop :=
  it.keyHash = hash it.key → ∃ flags count, it.asciiPrefix = ascii " " ++ flags ++ ascii " " ++ count ∧
    IsNumber flags ∧ IsNumber count ∧ digitsValue count = it.value.length ∧
    told it.key = some ⟨flags, it.value⟩

/-- A store makes a faithful item. -/
theorem faithful_store {clock : Clock} {p : StoreParams} {version : UInt64} {serial : Nat}
    (hfits : AsciiSession.Fits hash clock p) (told : Bytes → Option Told) :
    Faithful hash (Function.update told p.key (some ⟨p.flags, p.data⟩))
      (Item.create hash (prepareInsertion clock p) version serial) := by
  intro hself
  -- a client that finds the item has a key with its hash
  obtain ⟨hsize, hkept⟩ := hfits.resolve_right fun hhidden => hhidden hself.symm
  have hcreate : (Item.create hash (prepareInsertion clock p) version serial).key = p.key :=
    create_key hkept
  rw [create_asciiPrefix hkept, create_value, hcreate, Function.update_self]
  refine ⟨p.flags, p.size, rfl, p.flags_ok, p.size_ok, ?_, rfl⟩
  show digitsValue p.size = p.data.length
  rw [p.data_length, Nat.mod_eq_of_lt hsize]

/-- `incr` and `decr` make a faithful item if the length stays, or one that no client finds. -/
theorem faithful_renewed {f : UInt64 → UInt64} {g : Nat → Nat} {value version : UInt64} {serial : Nat}
    {told : Bytes → Option Told} (hfg : ∀ v, (f v).toNat = g v.toNat)
    (hfaithful : Faithful hash told (content old)) (hkey : old.hasKey hash key = true)
    (hvalue : old.dataAsIntegral = some value)
    (hkeeps : ((toSstring (f value)).length = old.value.length ∧
        (Cache.renewed key old (f value) (Cache.toSstring_length_lt _)).Kept) ∨
      AsciiSession.Hidden hash (Cache.renewed key old (f value) (Cache.toSstring_length_lt _))) :
    Faithful hash (Function.update told key ((told key).map (Told.count g)))
      (Item.create hash (Cache.renewed key old (f value) (Cache.toSstring_length_lt _)) version serial) := by
  intro hself
  obtain ⟨hsame, hkept⟩ := hkeeps.resolve_right fun hhidden => hhidden hself.symm
  obtain ⟨hhash, rfl⟩ := hasKey_iff.mp hkey
  obtain ⟨flags, count, heq, hflags, hcount, hlength, htold⟩ := hfaithful hhash
  have hcreate : (Item.create hash (Cache.renewed old.key old (f value) (Cache.toSstring_length_lt _))
      version serial).key = old.key := create_key hkept
  have hpre' : (Item.create hash (Cache.renewed old.key old (f value) (Cache.toSstring_length_lt _))
      version serial).asciiPrefix = old.asciiPrefix := create_asciiPrefix hkept
  have hdecimal : toSstring (f value) = CacheMap.decimal (g value.toNat) := by
    rw [toSstring, hfg]
    rfl
  rw [hpre', create_value, hcreate, Function.update_self]
  refine ⟨flags, count, heq, hflags, hcount, ?_, ?_⟩
  · rw [hlength]
    exact hsame.symm
  · have hint : integral old.value = some value := hvalue
    have htold' : told old.key = some ⟨flags, old.value⟩ := htold
    rw [htold', Option.map_some, Told.count]
    simp only [hint]
    rw [← hdecimal]
    rfl

/-- The linked items are faithful. -/
def AllFaithful (hash : Bytes → UInt64) (told : Bytes → Option Told) (s : Cache) : Prop :=
  ∀ a ∈ s.table, ∀ it, item s a = some it → Faithful hash told it

/-- What was told before a command about an item that stays, is told after it. -/
theorem faithful_stays {told told' : Bytes → Option Told} (h : Faithful hash told it)
    (hsame : it.keyHash = hash it.key → told' it.key = told it.key) : Faithful hash told' it := by
  intro hself
  rw [hsame hself]
  exact h hself

/-- A new item needs room. -/
theorem creates_room {r : Request} {i : Insertion} (h : i ∈ s.creates hash answer r) :
    answer.room ≠ .none := by
  have hfresh : ∀ insertion, i ∈ s.fresh hash answer insertion → answer.room ≠ .none := by
    intro insertion hi
    rw [Cache.fresh] at hi
    split at hi
    · rename_i hroom
      exact hroom.2
    · cases hi
  cases r with
  | get key => cases h
  | call c =>
    cases c with
    | set insertion => exact hfresh insertion h
    | add insertion => exact hfresh insertion h
    | _ => cases h

section

variable {clock : Clock} {c : Command} {call : CacheCall} {response : Response} {s₁ : Cache}
  {told : Bytes → Option Told}
  (h : Inv s [] leaked s.table []) (hall : AllFaithful hash told s)
  (hdoes : Does hash s answer [] leaked (.call call) (.ok (s₁, response)))
  (hunlinks : s.unlinks hash (.call call) = ((s.overrides hash (.call call)).map Prod.fst).toList)
include h hall hdoes hunlinks

/-- An item that stays has another key than the item that is stored. -/
theorem stays_faithful {target : Bytes} {entry : Option Told} (hb : b ∈ s.table)
    (hstays : b ∉ s.unlinks hash (.call call)) (hit : item s b = some it)
    (hover : ∀ q ∈ s.overrides hash (.call call), s.find hash target = some q.1)
    (hfresh : ∀ i ∈ s.creates hash answer (.call call), s.find hash target = none) :
    Faithful hash (if response.isStored then Function.update told target entry else told) it := by
  apply faithful_stays (hall b hb it hit)
  intro hself
  split
  · rename_i hyes
    obtain ⟨-, hwrites⟩ := hdoes.2.mp hyes
    apply Function.update_of_ne
    intro heq
    have hfind : s.find hash target = some b :=
      find_eq h.links hb hit (hasKey_iff.mpr ⟨hself.trans (congrArg hash heq), heq⟩)
    rcases hwrites with hsome | hsome
    · obtain ⟨q, hq⟩ := Option.isSome_iff_exists.mp hsome
      have hqb := (hover q hq).symm.trans hfind
      rw [hunlinks, hq] at hstays
      cases hqb
      exact hstays (List.mem_singleton_self q.1)
    · obtain ⟨i, hi⟩ := Option.isSome_iff_exists.mp hsome
      have hnone := hfresh i hi
      rw [hfind] at hnone
      cases hnone
  · rfl

/-- A store. -/
theorem StoresData.faithful {p : StoreParams} (hstores : StoresData hash s answer clock c call p)
    (hfits : Stores hash s answer (.call call) → AsciiSession.Fits hash clock p) :
    AllFaithful hash (if response.isStored then c.tell told else told) s₁ := by
  rw [hstores.tell]
  intro b hb it hit
  rcases hdoes.1.origin b hb it hit with
    ⟨hmem, hstays, hit'⟩ | ⟨q, hq, hroom, -, old, -, serial, rfl⟩ | ⟨i, hi, serial, rfl⟩
  · exact stays_faithful h hall hdoes hunlinks hmem hstays hit'
      (fun q hq => (hstores.overrides q hq).2) (fun i hi => (hstores.creates i hi).2)
  · have hyes : Stores hash s answer (.call call) :=
      ⟨hroom, .inl (Option.isSome_iff_exists.mpr ⟨q, hq⟩)⟩
    rw [hdoes.2.mpr hyes, if_pos rfl, (hstores.overrides q hq).1]
    exact faithful_store (hfits hyes) told
  · have hyes : Stores hash s answer (.call call) :=
      ⟨creates_room hi, .inr (Option.isSome_iff_exists.mpr ⟨i, hi⟩)⟩
    rw [hdoes.2.mpr hyes, if_pos rfl, (hstores.creates i hi).1]
    exact faithful_store (hfits hyes) told

/-- `incr` and `decr`. -/
theorem Counts.faithful {f : UInt64 → UInt64} {g : Nat → Nat}
    (hcounts : Counts hash s answer c call key f g)
    (hkeeps : answer.room ≠ .none → ∀ q ∈ s.overrides hash (.call call), ∀ it, s.objects q.1 = some it →
      (q.2.data.length = it.value.length ∧ q.2.Kept) ∨ AsciiSession.Hidden hash q.2) :
    AllFaithful hash (if response.isStored then c.tell told else told) s₁ := by
  have hover : ∀ q ∈ s.overrides hash (.call call), s.find hash key = some q.1 ∧
      ∃ it value, s.objects q.1 = some it ∧ it.dataAsIntegral = some value ∧
        q.2 = Cache.renewed key it (f value) (Cache.toSstring_length_lt _) := by
    intro q hq
    rw [hcounts.overrides] at hq
    obtain ⟨a, hfind, hq⟩ := Option.bind_eq_some_iff.mp hq
    obtain ⟨it, hobj, hq⟩ := Option.bind_eq_some_iff.mp hq
    obtain ⟨value, hvalue, hq⟩ := Option.bind_eq_some_iff.mp hq
    cases hq
    exact ⟨hfind, it, value, hobj, hvalue, rfl⟩
  rw [hcounts.tell]
  intro b hb it hit
  rcases hdoes.1.origin b hb it hit with
    ⟨hmem, hstays, hit'⟩ | ⟨q, hq, hroom, hlinked, old, hold, serial, rfl⟩ | ⟨i, hi, -⟩
  · refine stays_faithful h hall hdoes hunlinks hmem hstays hit' (fun q hq => (hover q hq).1) ?_
    intro i hi
    rw [hcounts.creates] at hi
    cases hi
  · have hyes : Stores hash s answer (.call call) :=
      ⟨hroom, .inl (Option.isSome_iff_exists.mpr ⟨q, hq⟩)⟩
    obtain ⟨hfind, it₀, value, hobj, hvalue, hrenewed⟩ := hover q hq
    rw [item_of_objects hobj] at hold
    cases hold
    obtain ⟨-, it', hit', hkey⟩ := find_some hfind
    rw [item_of_objects hobj] at hit'
    cases hit'
    have hkept := hkeeps hroom q hq it₀ hobj
    have hfaithful := hall q.1 hlinked _ (item_of_objects hobj)
    rw [hrenewed] at hkept
    rw [hdoes.2.mpr hyes, if_pos rfl, hrenewed]
    exact faithful_renewed hcounts.agree hfaithful hkey hvalue hkept
  · rw [hcounts.creates] at hi
    cases hi

end

/-- A call that stores nothing. -/
theorem removed_faithful {call : CacheCall} {response : Response} {s₁ : Cache}
    {told : Bytes → Option Told} (hall : AllFaithful hash told s)
    (hdoes : Does hash s answer [] leaked (.call call) (.ok (s₁, response)))
    (hover : s.overrides hash (.call call) = none) (hcreates : s.creates hash answer (.call call) = none) :
    AllFaithful hash told s₁ := by
  intro b hb it hit
  rcases hdoes.1.origin b hb it hit with ⟨hmem, -, hit'⟩ | ⟨q, hq, -⟩ | ⟨i, hi, -⟩
  · exact hall b hmem it hit'
  · rw [hover] at hq
    cases hq
  · rw [hcreates] at hi
    cases hi

/-! ### Commands -/

/-- The cache between two commands. -/
def Idle (hash : Bytes → UInt64) (told : Bytes → Option Told) (s : Cache) : Prop :=
  (∃ leaked, Inv s [] leaked s.table []) ∧ AllFaithful hash told s

/-- A call with its reply. -/
theorem handleCall_idle {call : CacheCall} {text : Bytes} {stored : Bool}
    {told : Bytes → Option Told} (h : Inv s [] leaked s.table [])
    (hok : s.handleCall hash answer call = .ok (s', text, stored))
    (hall : ∀ s₁ response, Does hash s answer [] leaked (.call call) (.ok (s₁, response)) →
      response.isStored = stored → AllFaithful hash told s₁) : Idle hash told s' := by
  rw [Cache.handleCall] at hok
  obtain ⟨⟨s₁, response⟩, hrequest, hok⟩ := bind_eq_ok.mp hok
  obtain ⟨text', -, hok⟩ := bind_eq_ok.mp hok
  obtain ⟨s₂, hrelease, hok⟩ := bind_eq_ok.mp hok
  cases hok
  have hdoes : Does hash s answer [] leaked (.call call) (s.request hash answer (.call call)) :=
    request_does h answer (.call call) (fun a _ => by simp)
  rw [hrequest] at hdoes
  obtain ⟨leaked', -, hinv⟩ := hdoes.1.inv
  obtain ⟨s₃, hrelease', hinv', hitem, htable⟩ := releaseAll_spec hinv hdoes.1.referred
  have heq : s₃ = s' := by
    have hboth := hrelease'.symm.trans hrelease
    cases hboth
    rfl
  subst heq
  have hfaithful := hall s₁ response hdoes rfl
  refine ⟨⟨leaked', hinv'⟩, ?_⟩
  rw [AllFaithful, hitem, htable]
  exact hfaithful

/-- Every item a list of handles is read as lies at one of these handles. -/
theorem mem_mapM_deref {items : List Nat} {its : List Item} (h : items.mapM s.deref = .ok its) :
    ∀ it ∈ its, ∃ a ∈ items, s.objects a = some it := by
  induction items generalizing its with
  | nil =>
    cases h
    exact fun it hit => nomatch hit
  | cons a items ih =>
    rw [List.mapM_cons] at h
    obtain ⟨it, hderef, h⟩ := bind_eq_ok.mp h
    obtain ⟨its', hrest, h⟩ := bind_eq_ok.mp h
    cases h
    intro it' hit'
    rcases List.mem_cons.mp hit' with rfl | hit'
    · refine ⟨a, List.mem_cons_self, ?_⟩
      rw [Cache.deref] at hderef
      split at hderef
      · cases hderef
      · cases hderef
        assumption
    · obtain ⟨b, hb, hobj⟩ := ih hrest it' hit'
      exact ⟨b, List.mem_cons_of_mem a hb, hobj⟩

/-- The text of a faithful item is a right value. -/
theorem appendItem_right {told : Bytes → Option Told} {keys : List Bytes}
    (hfaithful : Faithful hash told (content it)) (hmem : key ∈ keys)
    (hkey : it.hasKey hash key = true) (withVersion : Bool) :
    ∃ v : AsciiSession.Value, appendItem withVersion it = v.text ∧ v.Right told withVersion keys := by
  obtain ⟨hhash, rfl⟩ := hasKey_iff.mp hkey
  obtain ⟨flags, count, heq, hflags, hcount, hlength, htold⟩ := hfaithful hhash
  have heq' : it.asciiPrefix = ascii " " ++ flags ++ ascii " " ++ count := heq
  refine ⟨⟨it.key, flags, count, if withVersion then some it.version else none, it.value⟩, ?_,
    hmem, htold, hflags, hcount, hlength, ?_⟩
  · rw [appendItem, heq', AsciiSession.Value.text]
    cases withVersion <;> rfl
  · cases withVersion <;> rfl

/-- A reply of right values. -/
theorem flatMap_right {told : Bytes → Option Told} {keys : List Bytes} {withVersion : Bool}
    {its : List Item} (h : ∀ it ∈ its, ∃ v : AsciiSession.Value, appendItem withVersion it = v.text ∧
      v.Right told withVersion keys) :
    AsciiSession.ReplyRight told withVersion keys (its.flatMap (appendItem withVersion) ++ msgEnd) := by
  induction its with
  | nil => exact ⟨[], rfl, fun v hv => nomatch hv⟩
  | cons it its ih =>
    obtain ⟨v, htext, hright⟩ := h it List.mem_cons_self
    obtain ⟨values, heq, hrights⟩ := ih fun it' hit' => h it' (List.mem_cons_of_mem it hit')
    refine ⟨v :: values, ?_, ?_⟩
    · rw [List.flatMap_cons, List.flatMap_cons, List.append_assoc, heq, htext, List.append_assoc]
    · intro v' hv'
      rcases List.mem_cons.mp hv' with rfl | hv'
      · exact hright
      · exact hrights v' hv'

/-- `get` and `gets`. -/
theorem handleGet_idle {told : Bytes → Option Told} {keys : List Bytes} {withVersion : Bool}
    {text : Bytes} (h : Inv s [] leaked s.table []) (hall : AllFaithful hash told s)
    (hcount : ∀ key, keys.count key ≤ 65534)
    (hok : s.handleGet hash withVersion keys = .ok (s', text)) :
    Idle hash told s' ∧ AsciiSession.ReplyRight told withVersion keys text := by
  obtain ⟨s₁, items, hget, hinv, hitem, htable, hitems⟩ :=
    getItems_spec h (holds_of_count hcount)
  rw [Cache.handleGet, hget, ok_bind] at hok
  obtain ⟨its, hderef, hok⟩ := bind_eq_ok.mp hok
  obtain ⟨s₂, hrelease, hok⟩ := bind_eq_ok.mp hok
  cases hok
  obtain ⟨s₃, hrelease', hinv', hitem', htable'⟩ := releaseAll_spec hinv (by
    intro a ha
    rw [htable]
    exact (hitems a ha).1)
  have heq : s₃ = s' := by
    have hboth := hrelease'.symm.trans hrelease
    cases hboth
    rfl
  subst heq
  refine ⟨⟨⟨leaked, hinv'⟩, ?_⟩, flatMap_right ?_⟩
  · rw [AllFaithful, hitem', htable', hitem, htable]
    exact hall
  · intro it hit
    obtain ⟨a, ha, hobj⟩ := mem_mapM_deref hderef it hit
    obtain ⟨hmem, it', hit', key, hkey, hhas⟩ := hitems a ha
    rw [← hitem, item_of_objects hobj] at hit'
    cases hit'
    have hfaithful := hall a hmem (content it) (by rw [← hitem]; exact item_of_objects hobj)
    exact appendItem_right hfaithful hkey hhas withVersion

/-! ### One connection -/

/-- What a session keeps: between commands its cache holds what the client was told, and the reply
to the last command was right. -/
structure Tells (hash : Bytes → UInt64) (s : AsciiSession) : Prop where
  idle : Idle hash s.told s.cache
  correct : s.Correct

/-- A command that is not `get` or `gets`. -/
theorem correct_of_call {x : AsciiSession} {c : Command} {text : Bytes}
    (hlast : x.last = some (c, text)) (hget : ∀ keys, c ≠ .get keys)
    (hgets : ∀ keys, c ≠ .gets keys) : x.Correct := by
  intro p hp
  rw [hlast] at hp
  cases hp
  cases c with
  | get keys => exact absurd rfl (hget keys)
  | gets keys => exact absurd rfl (hgets keys)
  | _ => trivial

/-- A command that writes items. -/
theorem handle_writes {x : AsciiSession} {clock : Clock} {c : Command} {call : CacheCall}
    {cache : Cache} {text : Bytes} {stored : Bool} (h : Tells hash x)
    (hcareful : x.Careful hash (.command answer clock c))
    (hcall : AsciiSession.callOf clock c = some call)
    (hunlinks : x.cache.unlinks hash (.call call) =
      ((x.cache.overrides hash (.call call)).map Prod.fst).toList)
    (hok : x.cache.handleCall hash answer call = .ok (cache, text, stored)) :
    Idle hash (if stored then c.tell x.told else x.told) cache := by
  obtain ⟨⟨leaked, hinv⟩, hall⟩ := h.idle
  obtain ⟨hfits, hkeeps, -⟩ := hcareful
  apply handleCall_idle hinv hok
  rintro s₁ response hdoes rfl
  rcases command_cases hcall with ⟨p, hstores⟩ | ⟨key, f, g, hcounts⟩
  · apply hstores.faithful hinv hall hdoes hunlinks
    intro hwrites
    exact hfits p hstores.params ⟨hwrites.1, call, hcall, hwrites.2⟩
  · apply hcounts.faithful hinv hall hdoes hunlinks
    exact fun hroom => hkeeps hcounts.params hroom call hcall

/-- A command that only removes items. -/
theorem handle_removes {x : AsciiSession} {call : CacheCall} {cache : Cache} {text : Bytes}
    {stored : Bool} (h : Tells hash x) (hover : x.cache.overrides hash (.call call) = none)
    (hcreates : x.cache.creates hash answer (.call call) = none)
    (hok : x.cache.handleCall hash answer call = .ok (cache, text, stored)) (told : Bytes → Option Told) :
    Idle hash (if stored then told else x.told) cache := by
  obtain ⟨⟨leaked, hinv⟩, hall⟩ := h.idle
  apply handleCall_idle hinv hok
  rintro s₁ response hdoes rfl
  have hnot : response.isStored = false := by
    rw [← Bool.not_eq_true, hdoes.2]
    rintro ⟨-, hsome | hsome⟩
    · rw [hover] at hsome
      cases hsome
    · rw [hcreates] at hsome
      cases hsome
  rw [hnot]
  exact removed_faithful hall hdoes hover hcreates

/-- A command of the protocol keeps `Tells`, with the reply it sends noted. -/
theorem Tells.command {x : AsciiSession} {clock : Clock} {c : Command} {cache : Cache} {text : Bytes}
    {stored : Bool} (h : Tells hash x) (hcareful : x.Careful hash (.command answer clock c))
    (hok : x.cache.handle hash answer clock c = .ok (cache, text, stored)) :
    Tells hash { x with
      cache := cache
      told := if stored then c.tell x.told else x.told
      last := some (c, text) } := by
  cases c with
  | set p =>
    exact ⟨handle_writes h hcareful rfl rfl hok, correct_of_call rfl (by simp) (by simp)⟩
  | add p =>
    exact ⟨handle_writes h hcareful rfl rfl hok, correct_of_call rfl (by simp) (by simp)⟩
  | replace p =>
    exact ⟨handle_writes h hcareful rfl rfl hok, correct_of_call rfl (by simp) (by simp)⟩
  | cas p version =>
    exact ⟨handle_writes h hcareful rfl rfl hok, correct_of_call rfl (by simp) (by simp)⟩
  | incr key delta =>
    exact ⟨handle_writes h hcareful rfl rfl hok, correct_of_call rfl (by simp) (by simp)⟩
  | decr key delta =>
    exact ⟨handle_writes h hcareful rfl rfl hok, correct_of_call rfl (by simp) (by simp)⟩
  | get keys =>
    obtain ⟨⟨leaked, hinv⟩, hall⟩ := h.idle
    obtain ⟨r, hget, heq⟩ := map_eq_ok.mp hok
    cases heq
    obtain ⟨hidle, hright⟩ := handleGet_idle hinv hall hcareful.2.2 hget
    refine ⟨hidle, ?_⟩
    intro p hp
    cases hp
    exact hright
  | gets keys =>
    obtain ⟨⟨leaked, hinv⟩, hall⟩ := h.idle
    obtain ⟨r, hget, heq⟩ := map_eq_ok.mp hok
    cases heq
    obtain ⟨hidle, hright⟩ := handleGet_idle hinv hall hcareful.2.2 hget
    refine ⟨hidle, ?_⟩
    intro p hp
    cases hp
    exact hright
  | delete key =>
    exact ⟨handle_removes h rfl rfl hok _, correct_of_call rfl (by simp) (by simp)⟩
  | flushAll expiration =>
    refine ⟨?_, correct_of_call rfl (by simp) (by simp)⟩
    -- With a delay, the flush is only scheduled, and the cache stays as it is for now.
    rw [Cache.handle] at hok
    split at hok
    · cases hok
      exact h.idle
    · exact handle_removes h rfl rfl hok _
  | version =>
    cases hok
    exact ⟨h.idle, correct_of_call rfl (by simp) (by simp)⟩

/-- Every careful step of a session keeps `Tells`. -/
theorem Tells.step {x t : AsciiSession} {e : AsciiSession.Event} (h : Tells hash x)
    (hcareful : x.Careful hash e) (hstep : x.step hash e = some t) : Tells hash t := by
  have hquiet : ∀ p ∈ (none : Option (Command × Bytes)), False := fun p hp => nomatch hp
  cases e with
  | command answer clock c =>
    rw [AsciiSession.step] at hstep
    split at hstep
    · cases hstep
    · split at hstep
      · cases hstep
      · cases hstep
        exact ⟨h.idle, fun p hp => (hquiet p hp).elim⟩
      · rename_i hok
        cases hstep
        exact h.command hcareful hok
  | flushTimer =>
    rw [AsciiSession.step] at hstep
    split at hstep
    · cases hstep
    · obtain ⟨⟨leaked, hinv⟩, hall⟩ := h.idle
      obtain ⟨cache, hok, hinv', htable, -⟩ := flushAll_spec hinv
      rw [hok] at hstep
      cases hstep
      refine ⟨⟨⟨leaked, hinv'⟩, ?_⟩, fun p hp => (hquiet p hp).elim⟩
      intro a ha
      rw [htable] at ha
      cases ha

/-- In every run of careful commands the values of the replies are right. -/
theorem values_right {es : List AsciiSession.Event}
    (hcareful : Guarded (AsciiSession.step hash) (AsciiSession.Careful hash) AsciiSession.create es) :
    Always (AsciiSession.step hash) AsciiSession.Correct AsciiSession.create es := by
  apply always_of_guarded (Tells hash) (fun _ h => h.correct)
    (fun _ _ _ h hok hstep => h.step hok hstep) _ hcareful
  refine ⟨⟨⟨[], Inv.create⟩, ?_⟩, fun p hp => nomatch hp⟩
  intro a ha
  cases ha

/-- `set k 0 0 1` with one digit. -/
def setDigit (d : UInt8) : StoreParams where
  key := [107]
  flags := [48]
  expiration := 0
  size := [49]
  data := [d]
  key_ok := by decide
  flags_ok := by decide
  size_ok := by decide
  data_length := rfl

/-- A store, `incr` from 5 to 6, and a `get`. -/
theorem values_right_incr :
    Always (AsciiSession.step fun key => UInt64.ofNat key.length) AsciiSession.Correct
      AsciiSession.create
      [.command ⟨[], .fresh 0, true⟩ ⟨0, 0⟩ (.set (setDigit 53)),
        .command ⟨[], .fresh 1, true⟩ ⟨0, 0⟩ (.incr [107] 1),
        .command ⟨[], .none, true⟩ ⟨0, 0⟩ (.get [[107]])] := by
  apply values_right
  intro s₁ h₁
  cases h₁
  refine ⟨⟨?_, ?_, ?_⟩, fun s₂ h₂ => ?_⟩
  · intro p hp _
    cases hp
    exact .inl ⟨by decide, kept_of_short (by decide) (by decide)⟩
  · intro hnone
    cases hnone
  · intro key
    exact Nat.zero_le _
  · cases h₂
    refine ⟨⟨?_, ?_, ?_⟩, fun s₃ h₃ => ⟨⟨?_, ?_, ?_⟩, trivial⟩⟩
    · intro p hp
      cases hp
    · intro _ _ call hcall p hp it hit
      cases hcall
      cases hp
      cases hit
      exact .inl ⟨by decide, kept_of_short (by decide) (by decide)⟩
    · intro key
      exact Nat.zero_le _
    · intro p hp
      cases hp
    · intro _ _ call hcall
      cases hcall
    · intro key
      exact Nat.le_trans List.count_le_length (by decide)

/-- The reply to a `get` of one key, and what was told about it. -/
def lastGet (x : AsciiSession) : Option (Bytes × Bytes × Option Told) :=
  match x.last with
  | some (.get [key], text) => some (key, text, x.told key)
  | _ => none

/-- In a correct session the reply to the last get says what the client was told of the key. -/
theorem lastGet_right {x : AsciiSession} {text : Bytes} {t : Option Told} (h : x.Correct)
    (hget : lastGet x = some (key, text, t)) :
    x.told key = t ∧ AsciiSession.ReplyRight x.told false [key] text := by
  rw [lastGet] at hget
  split at hget
  · rename_i hlast
    cases hget
    exact ⟨rfl, h _ hlast⟩
  · cases hget

/-- `incr` from 9 to 10 leaves the byte count 1. -/
theorem incr_keeps_count :
    ¬ Always (AsciiSession.step fun key => UInt64.ofNat key.length) AsciiSession.Correct
      AsciiSession.create
      [.command ⟨[], .fresh 0, true⟩ ⟨0, 0⟩ (.set (setDigit 57)),
        .command ⟨[], .fresh 1, true⟩ ⟨0, 0⟩ (.incr [107] 1),
        .command ⟨[], .none, true⟩ ⟨0, 0⟩ (.get [[107]])] := by
  intro h
  have hrun : ((run (AsciiSession.step fun key => UInt64.ofNat key.length) AsciiSession.create
      [.command ⟨[], .fresh 0, true⟩ ⟨0, 0⟩ (.set (setDigit 57)),
        .command ⟨[], .fresh 1, true⟩ ⟨0, 0⟩ (.incr [107] 1),
        .command ⟨[], .none, true⟩ ⟨0, 0⟩ (.get [[107]])]).bind lastGet) =
      some ([107], ascii "VALUE k 0 1\r\n10\r\nEND\r\n", some ⟨[48], [49, 48]⟩) := by
    decide +kernel
  obtain ⟨x, hx, hget⟩ := Option.bind_eq_some_iff.mp hrun
  obtain ⟨htold, values, htext, hright⟩ := lastGet_right (h.last hx) hget
  cases values with
  | nil => exact absurd htext (by decide)
  | cons v values =>
    obtain ⟨hkey, htold', -, hcount, hlength, hversion⟩ := hright v List.mem_cons_self
    rw [List.mem_singleton.mp hkey, htold, Option.some.injEq, Told.mk.injEq] at htold'
    have hnone : v.version = none := Option.not_isSome_iff_eq_none.mp (by simp [hversion])
    rw [List.flatMap_cons, AsciiSession.Value.text, List.mem_singleton.mp hkey, ← htold'.1, hnone,
      ← htold'.2] at htext
    rw [← htold'.2] at hlength
    -- the digits of the count stand before the end of the line
    have hsplit : ascii "VALUE k 0 1\r\n10\r\nEND\r\n" =
        ascii "VALUE k 0 " ++ 49 :: 13 :: ascii "\n10\r\nEND\r\n" := by decide +kernel
    have hstart : ascii "VALUE k 0 " = msgValue ++ 107 :: (ascii " " ++ 48 :: ascii " ") := by
      decide +kernel
    have hwhole : ascii "VALUE k 0 " ++ 49 :: 13 :: ascii "\n10\r\nEND\r\n" =
        ascii "VALUE k 0 " ++ (v.count ++ (msgCrlf ++ 49 :: 48 ::
          (msgCrlf ++ (values.flatMap AsciiSession.Value.text ++ msgEnd)))) := by
      rw [← hsplit, htext, hstart]
      simp
    have hline := List.append_cancel_left hwhole
    match hv : v.count with
    | [] => exact hcount.1 hv
    | [d] =>
      rw [hv] at hline hlength
      rw [← (List.cons.inj hline).1] at hlength
      exact absurd hlength (by decide)
    | d :: e :: rest =>
      -- the second digit would be the end of the line
      rw [hv] at hline hcount
      have he : e = 13 := (List.cons.inj (List.cons.inj hline).2).1.symm
      rw [he] at hcount
      exact absurd (List.all_eq_true.mp hcount.2 13 (by simp)) (by decide)

end Netstar.Proofs.Memcached
