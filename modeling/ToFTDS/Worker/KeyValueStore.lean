import ToFTDS.Lib.Words
import ToFTDS.Consensus.State

/-!
# The key-value store

`KeyValueStoreImpl` of `worker.cpp`, with `Storage` of `storage.h`. A client's `Write` becomes a
command of the consensus node, the key and the value with a space between them, and `ActualizeState`
reads the words of the committed commands back and puts them into the storage.

A key or a value with a blank in it comes apart on its way: `written_values_read_back` says that the
others, and only these, are read back.
-/

namespace ToFTDS.Worker

open Consensus

/-- `Key` (`query.h:7`). -/
abbrev Key := String

/-- `Value` (`query.h:8`). -/
abbrev Value := String

/-! ## `storage.h` -/

/-- `Storage` (`storage.h:9`). -/
structure Storage (Key Value : Type) where
  values : Finmap (fun _ : Key => Value) := ∅

namespace Storage

variable {Key Value : Type} [DecidableEq Key]

/-- `Get` (`storage.h:11`). -/
def get (s : Storage Key Value) (key : Key) : Option Value := s.values.lookup key

/-- `Set` (`storage.h:19`). -/
def set (s : Storage Key Value) (key : Key) (newValue : Value) : Storage Key Value :=
  { values := s.values.insert key newValue }

@[simp] theorem get_set (s : Storage Key Value) (key : Key) (value : Value) :
    (s.set key value).get key = some value := Finmap.lookup_insert _

@[simp] theorem get_set_of_ne (s : Storage Key Value) {key key' : Key} (value : Value)
    (h : key' ≠ key) : (s.set key value).get key' = s.get key' := Finmap.lookup_insert_of_ne _ h

end Storage

/-! ## Commands -/

/-- `std::isspace` of the classic locale, which `operator>>` skips and stops at: the space, and the
five characters from the tab to the carriage return. The bytes of a character past ASCII are no
blanks. -/
def isspace (c : Char) : Bool := c.toNat = 32 || (9 ≤ c.toNat && c.toNat ≤ 13)

/-- The command that `Write` makes of a key and a value (`worker.cpp:74`). -/
def writeCommand (key : Key) (value : Value) : Command := key ++ " " ++ value

/-- The two words that `ActualizeState` reads from a command (`worker.cpp:42`). A word that is not
there is empty. -/
def parseCommand (command : Command) : Key × Value :=
  let (key, rest) := extractWord isspace command.toList
  let (value, _) := extractWord isspace rest
  (String.ofList key, String.ofList value)

/-- `KeyValueStoreImpl` (`worker.cpp:30`). -/
structure KeyValueStoreImpl where
  lastPersistedId : UInt64 := 0
  storage : Storage Key Value := {}

namespace KeyValueStoreImpl

/-- The body of the loop of `ActualizeState` (`worker.cpp:38`). Words that are missing are logged
only. -/
def handleCommand (kv : KeyValueStoreImpl) (command : Command) : KeyValueStoreImpl :=
  let words := parseCommand command
  { lastPersistedId := kv.lastPersistedId + 1
    storage := kv.storage.set words.1 words.2 }

/-- The loop of `ActualizeState` over the commands that the node has answered. -/
def handleCommands (kv : KeyValueStoreImpl) (commands : List Command) : KeyValueStoreImpl :=
  commands.foldl handleCommand kv

end KeyValueStoreImpl

/-! ## What is written is read back -/

/-- A key and a value without white space are parsed as they were written. -/
theorem parseCommand_writeCommand {key : Key} {value : Value} (hne : key ≠ "")
    (hk : NoBlank isspace key.toList) (hv : NoBlank isspace value.toList) :
    parseCommand (writeCommand key value) = (key, value) := by
  have hspace : isspace ' ' = true := rfl
  have hl : (writeCommand key value).toList = key.toList ++ ' ' :: value.toList := by
    simp [writeCommand, String.toList_append]
  have hne' : key.toList ≠ [] := fun h => hne (String.toList_injective h)
  simp only [parseCommand, hl, extractWord_append hk hne' hspace, extractWord_blank hspace,
    extractWord_end hv, String.ofList_toList]

/-- What is read has no blank in it. -/
theorem parseCommand_not_blank (command : Command) :
    NoBlank isspace (parseCommand command).1.toList ∧
      NoBlank isspace (parseCommand command).2.toList := by
  simp only [parseCommand, String.toList_ofList]
  exact ⟨extractWord_not_blank _, extractWord_not_blank _⟩

/-- Whatever the store holds, handling the command of `key` and `value` makes `Get` of the key
return the value and leaves `Get` of every other key alone, and no other pair has the same
command. -/
structure WrittenBack (key : Key) (value : Value) : Prop where
  get : ∀ kv : KeyValueStoreImpl,
    (kv.handleCommand (writeCommand key value)).storage.get key = some value
  others : ∀ kv : KeyValueStoreImpl, ∀ key' ≠ key,
    (kv.handleCommand (writeCommand key value)).storage.get key' = kv.storage.get key'
  inj : ∀ key' value', key' ≠ "" → value' ≠ "" →
    writeCommand key' value' = writeCommand key value → key' = key ∧ value' = value

/-- **Written values read back.** The keys and values that do are those without a blank. (The value
may be empty.) -/
theorem written_values_read_back (key : Key) (value : Value) (hk : key ≠ "") :
    WrittenBack key value ↔ NoBlank isspace key.toList ∧ NoBlank isspace value.toList := by
  constructor
  · intro h
    -- the empty store gets one entry, which has no blanks
    have hget := h.get {}
    simp only [KeyValueStoreImpl.handleCommand] at hget
    have hkey : key = (parseCommand (writeCommand key value)).1 := by
      by_contra hne
      rw [Storage.get_set_of_ne _ _ hne] at hget
      cases hget
    rw [← hkey, Storage.get_set] at hget
    obtain ⟨h1, h2⟩ := parseCommand_not_blank (writeCommand key value)
    rw [← hkey] at h1
    rw [Option.some.inj hget] at h2
    exact ⟨h1, h2⟩
  · rintro ⟨h1, h2⟩
    have hparse := parseCommand_writeCommand hk h1 h2
    refine ⟨fun kv => ?_, fun kv key' hne => ?_, fun key' value' _ _ heq => ?_⟩
    · simp [KeyValueStoreImpl.handleCommand, hparse]
    · simp [KeyValueStoreImpl.handleCommand, hparse, hne]
    · have hl := congrArg String.toList heq
      simp only [writeCommand, String.toList_append, List.append_assoc] at hl
      obtain ⟨h3, h4⟩ := append_blank_inj h1 h2 (by rfl) hl
      exact ⟨String.toList_injective h3, String.toList_injective h4⟩

/-- The key `x` and the value `y` are read back. -/
theorem written_values_read_back_xy :
    WrittenBack "x" "y" ↔ NoBlank isspace "x".toList ∧ NoBlank isspace "y".toList :=
  written_values_read_back "x" "y" (by decide)

/-- The value `c` of the key `a b` is not there afterwards, and the pair of `a` and `b c` has the
same command. -/
theorem not_written_values_read_back :
    ¬ ∀ key value, key ≠ "" → value ≠ "" → WrittenBack key value := by
  intro h
  have := (h "a b" "c" (by decide) (by decide)).inj "a" "b c" (by decide) (by decide) (by decide)
  exact absurd this.1 (by decide)

end ToFTDS.Worker
