import Netstar.Spec.Memcached.CacheMap

/-!
# `Netstar.Spec.Memcached.Ascii`: `ascii_protocol`

`handle` is the part of `ascii_protocol::handle` after the parser: the call on the cache, and the text
of the reply. `StoreParams` is what the parser has after a store command. The digits of the flags and
of the size are kept as texts, and the size counts modulo 2^32, so the data has that many bytes. The
prefix of the item is made of these texts.

`stats` only prints counters and `noreply` only drops the reply; both are left out. The timer of
`flush_all` with a delay is an event of its own.

`AsciiSession` is one connection. `told` has, for each key, the flags and the data of the last store
that succeeded. It is not in the source.
-/

set_option autoImplicit false

namespace Netstar.Spec.Memcached

/-- The bytes of a text. -/
def ascii (text : String) : Bytes := text.toList.map fun c => UInt8.ofNat c.toNat

/-- The end of a line. -/
def msgCrlf : Bytes := ascii "\r\n"
/-- The reply to a store. -/
def msgStored : Bytes := ascii "STORED\r\n"
/-- The reply to a store that is refused. -/
def msgNotStored : Bytes := ascii "NOT_STORED\r\n"
/-- The end of the values. -/
def msgEnd : Bytes := ascii "END\r\n"
/-- The start of a value. -/
def msgValue : Bytes := ascii "VALUE "
/-- The reply to a delete. -/
def msgDeleted : Bytes := ascii "DELETED\r\n"
/-- The reply for a key without an item. -/
def msgNotFound : Bytes := ascii "NOT_FOUND\r\n"
/-- The reply to `flush_all`. -/
def msgOk : Bytes := ascii "OK\r\n"
/-- The reply to `version`. -/
def msgVersion : Bytes := ascii "VERSION seastar v1.0\r\n"
/-- The reply to a `cas` with another version. -/
def msgExists : Bytes := ascii "EXISTS\r\n"
/-- The reply to a store without memory. -/
def msgOutOfMemory : Bytes := ascii "SERVER_ERROR Out of memory allocating new item\r\n"
/-- The reply to counting on a value that is no number. -/
def msgErrorNonNumericValue : Bytes :=
  ascii "CLIENT_ERROR cannot increment or decrement non-numeric value\r\n"

/-- The bytes are the digits of a number. -/
def IsNumber (digits : Bytes) : Prop := digits ≠ [] ∧ digits.all isDigit = true

/-- Whether digits are a number can be computed. -/
instance (digits : Bytes) : Decidable (IsNumber digits) := inferInstanceAs (Decidable (_ ∧ _))

/-- A store command as the parser returns it. -/
structure StoreParams where
  key : Bytes
  flags : Bytes
  expiration : UInt32
  size : Bytes
  data : Bytes
  key_ok : key ≠ [] ∧ 32 ∉ key
  flags_ok : IsNumber flags
  size_ok : IsNumber size
  data_length : data.length = digitsValue size % 2 ^ 32

/-- The commands. -/
inductive Command where
  | set (p : StoreParams)
  | add (p : StoreParams)
  | replace (p : StoreParams)
  | cas (p : StoreParams) (version : UInt64)
  | get (keys : List Bytes)
  | gets (keys : List Bytes)
  | delete (key : Bytes)
  | flushAll (expiration : UInt32)
  | version
  | incr (key : Bytes) (delta : UInt64)
  | decr (key : Bytes) (delta : UInt64)

/-- The clock in seconds, and `get_wc_to_clock_type_delta`. -/
structure Clock where
  now : Int
  wcDelta : Int

/-- The constructor of `expiration`. -/
def Clock.expiration (clock : Clock) (s : UInt32) : Option Int :=
  if s = 0 then none
  else if s.toNat ≤ 60 * 60 * 24 * 30 then some (clock.now + s.toNat)
  else some (s.toNat + clock.wcDelta)

/-- `prepare_insertion`. -/
def prepareInsertion (clock : Clock) (p : StoreParams) : Insertion where
  key := p.key
  asciiPrefix := ascii " " ++ p.flags ++ ascii " " ++ p.size
  data := p.data
  expiry := clock.expiration p.expiration
  data_lt := by
    rw [p.data_length]
    exact Nat.mod_lt _ (by decide)

/-- `append_item`. -/
def appendItem (withVersion : Bool) (it : Item) : Bytes :=
  msgValue ++ it.key ++ it.asciiPrefix ++
    (if withVersion then ascii " " ++ toSstring it.version else []) ++ msgCrlf ++ it.value ++ msgCrlf

namespace Cache

/-- `get` of all keys. -/
def getItems (hash : Bytes → UInt64) (s : Cache) : List Bytes → Except CacheFault (Cache × List Nat)
  | [] => .ok (s, [])
  | key :: keys => do
    let (s, a) ← s.get hash key
    let (s, items) ← s.getItems hash keys
    return (s, a.toList ++ items)

/-- `handle_get`. The message holds the items until it is written. -/
def handleGet (hash : Bytes → UInt64) (s : Cache) (withVersion : Bool) (keys : List Bytes) :
    Except CacheFault (Cache × Bytes) := do
  let (s, items) ← s.getItems hash keys
  let its ← items.mapM s.deref
  let s ← items.foldlM release s
  return (s, its.flatMap (appendItem withVersion) ++ msgEnd)

/-- The text for the result of a call. The result of `set` is not looked at. -/
def resultText : CacheCall → CacheResult → Bytes
  | _, .stored .threw => msgOutOfMemory
  | .set _, _ => msgStored
  | .cas _ _, .stored (.yes _) => msgStored
  | .cas _ _, .stored .no => msgNotFound
  | .cas _ _, .stored .badVersion => msgExists
  | .add _, r => if r matches .stored (.yes _) then msgStored else msgNotStored
  | .replace _, r => if r matches .stored (.yes _) then msgStored else msgNotStored
  | .remove _, .removed found => if found then msgDeleted else msgNotFound
  | _, _ => msgOk

/-- The text for the result of `incr` and `decr`. -/
def countedText (s : Cache) : Counted → Except CacheFault Bytes
  | .missing => .ok msgNotFound
  | .threw => .ok msgOutOfMemory
  | .notNumeric _ => .ok msgErrorNonNumericValue
  | .done a => do
    let it ← s.deref a
    return it.value ++ msgCrlf

/-- The text of the reply to a call. -/
def replyText (s : Cache) (c : CacheCall) : Response → Except CacheFault Bytes
  | .counted count => s.countedText count
  | .result r => .ok (resultText c r)
  | .item _ => .ok []

/-- One call on the cache with its reply. The result says also if a store took effect. -/
def handleCall (hash : Bytes → UInt64) (s : Cache) (answer : SlabAnswer) (c : CacheCall) :
    Except CacheFault (Cache × Bytes × Bool) := do
  let (s, response) ← s.request hash answer (.call c)
  let text ← s.replyText c response
  let s ← response.held.foldlM release s
  return (s, text, response.isStored)

/-- `ascii_protocol::handle` after the parser. -/
def handle (hash : Bytes → UInt64) (s : Cache) (answer : SlabAnswer) (clock : Clock) :
    Command → Except CacheFault (Cache × Bytes × Bool)
  | .set p => s.handleCall hash answer (.set (prepareInsertion clock p))
  | .add p => s.handleCall hash answer (.add (prepareInsertion clock p))
  | .replace p => s.handleCall hash answer (.replace (prepareInsertion clock p))
  | .cas p version => s.handleCall hash answer (.cas (prepareInsertion clock p) version)
  | .get keys => (s.handleGet hash false keys).map fun r => (r.1, r.2, false)
  | .gets keys => (s.handleGet hash true keys).map fun r => (r.1, r.2, false)
  | .delete key => s.handleCall hash answer (.remove key)
  | .flushAll expiration =>
    if expiration ≠ 0 then .ok (s, msgOk, false) else s.handleCall hash answer .flushAll
  | .version => .ok (s, msgVersion, false)
  | .incr key delta => s.handleCall hash answer (.incr key delta)
  | .decr key delta => s.handleCall hash answer (.decr key delta)

end Cache

/-! ### One connection -/

/-- The flags and the data of a store. -/
structure Told where
  flags : Bytes
  data : Bytes
  deriving DecidableEq, Repr

/-- The data after `incr` or `decr`: a number becomes `f` of it. -/
def Told.count (f : Nat → Nat) (t : Told) : Told :=
  match integral t.data with
  | some value => { t with data := CacheMap.decimal (f value.toNat) }
  | none => t

/-- What a command that took effect tells the cache. -/
def Command.tell (told : Bytes → Option Told) : Command → Bytes → Option Told
  | .set p => Function.update told p.key (some ⟨p.flags, p.data⟩)
  | .add p => Function.update told p.key (some ⟨p.flags, p.data⟩)
  | .replace p => Function.update told p.key (some ⟨p.flags, p.data⟩)
  | .cas p _ => Function.update told p.key (some ⟨p.flags, p.data⟩)
  | .incr key delta =>
    Function.update told key ((told key).map (.count fun n => (n + delta.toNat) % 2 ^ 64))
  | .decr key delta => Function.update told key ((told key).map (.count fun n => n - delta.toNat))
  | _ => told

/-- The cache, what it was told, and the last command with its reply. -/
structure AsciiSession where
  cache : Cache
  told : Bytes → Option Told
  last : Option (Command × Bytes)
  fault : Option CacheFault

namespace AsciiSession

/-- A session with an empty cache. -/
def create : AsciiSession := ⟨Cache.create, fun _ => none, none, none⟩

/-- A command, with what the allocator does in it, or the timer of `flush_all`. -/
inductive Event where
  | command (answer : SlabAnswer) (clock : Clock) (c : Command)
  | flushTimer

/-- One event. -/
def step (hash : Bytes → UInt64) (s : AsciiSession) (e : Event) : Option AsciiSession :=
  if s.fault.isSome then none
  else
    match e with
    | .command answer clock c =>
      match s.cache.handle hash answer clock c with
      | .error .notOffered => none
      | .error fault => some { s with last := none, fault := some fault }
      | .ok (cache, text, stored) =>
        some { s with
          cache := cache
          told := if stored then c.tell s.told else s.told
          last := some (c, text) }
    | .flushTimer =>
      match s.cache.flushAll with
      | .error fault => some { s with last := none, fault := some fault }
      | .ok cache => some { s with cache := cache, last := none }

/-- What one `VALUE` of a reply says. -/
structure Value where
  key : Bytes
  flags : Bytes
  count : Bytes
  version : Option UInt64
  data : Bytes

/-- The line with the key, the flags and the byte count, and the block of data. -/
def Value.text (v : Value) : Bytes :=
  msgValue ++ v.key ++ (ascii " " ++ v.flags ++ ascii " " ++ v.count) ++
    (v.version.elim [] fun version => ascii " " ++ toSstring version) ++ msgCrlf ++ v.data ++ msgCrlf

/-- The value has the flags and the data of the last store of its key, and its byte count is the
length of the data. -/
structure Value.Right (told : Bytes → Option Told) (withVersion : Bool) (keys : List Bytes)
    (v : Value) : Prop where
  key : v.key ∈ keys
  told : told v.key = some ⟨v.flags, v.data⟩
  flags : IsNumber v.flags
  count : IsNumber v.count
  length : digitsValue v.count = v.data.length
  version : v.version.isSome = withVersion

/-- The reply is made of right values. -/
def ReplyRight (told : Bytes → Option Told) (withVersion : Bool) (keys : List Bytes) (text : Bytes) :
    Prop :=
  ∃ values : List Value, text = values.flatMap Value.text ++ msgEnd ∧
    ∀ v ∈ values, v.Right told withVersion keys

/-- The last reply of `get` or `gets` is right. -/
def Correct (s : AsciiSession) : Prop :=
  ∀ p ∈ s.last, match p with
    | (.get keys, text) => ReplyRight s.told false keys text
    | (.gets keys, text) => ReplyRight s.told true keys text
    | _ => True

/-- No client finds the item: the key that it reads back has another hash. -/
def Hidden (hash : Bytes → UInt64) (insertion : Insertion) : Prop :=
  hash insertion.storedKey ≠ hash insertion.key

/-- The size of the command is its value, and the item reads back what it was made of. Or no client finds
it. -/
def Fits (hash : Bytes → UInt64) (clock : Clock) (p : StoreParams) : Prop :=
  (digitsValue p.size < 2 ^ 32 ∧ (prepareInsertion clock p).Kept) ∨
    Hidden hash (prepareInsertion clock p)

/-- The cache call of a command. -/
def callOf (clock : Clock) : Command → Option CacheCall
  | .set p => some (.set (prepareInsertion clock p))
  | .add p => some (.add (prepareInsertion clock p))
  | .replace p => some (.replace (prepareInsertion clock p))
  | .cas p version => some (.cas (prepareInsertion clock p) version)
  | .incr key delta => some (.incr key delta)
  | .decr key delta => some (.decr key delta)
  | _ => none

/-- The parameters of a store command. -/
def paramsOf : Command → Option StoreParams
  | .set p => some p
  | .add p => some p
  | .replace p => some p
  | .cas p _ => some p
  | _ => none

/-- The keys that a command reads. -/
def keysOf : Command → List Bytes
  | .get keys => keys
  | .gets keys => keys
  | _ => []

/-- The command writes an item. -/
def Writes (hash : Bytes → UInt64) (s : Cache) (answer : SlabAnswer) (clock : Clock) (c : Command) :
    Prop :=
  answer.room ≠ .none ∧ ∃ call ∈ callOf clock c, (s.overrides hash (.call call)).isSome = true ∨
    (s.creates hash answer (.call call)).isSome = true

/-- A command that keeps the byte counts right: what it stores fits, `incr` and `decr` keep the length
of the data and what is stored with it, and no key is read so often that the counter of references is
full. -/
def Careful (hash : Bytes → UInt64) (s : AsciiSession) : Event → Prop
  | .command answer clock c =>
    (∀ p ∈ paramsOf c, Writes hash s.cache answer clock c → Fits hash clock p) ∧
      (paramsOf c = none → answer.room ≠ .none →
        ∀ call ∈ callOf clock c, ∀ p ∈ s.cache.overrides hash (.call call),
          ∀ it, s.cache.objects p.1 = some it →
            (p.2.data.length = it.value.length ∧ p.2.Kept) ∨ Hidden hash p.2) ∧
      ∀ key, (keysOf c).count key ≤ 65534
  | .flushTimer => True

end AsciiSession

end Netstar.Spec.Memcached
