import Kvdb.Command.Basic
import Kvdb.Semantics.Runs

/-!
# The configuration

A configuration is checked before it comes into force, when the server starts and when it
is replaced over HTTP. One of the checks is for memory: the block cache and the write
buffers should take at most half of it. The check multiplies the memory size by 1024 although
`total_memory` counts in bytes, and its products and sums wrap around.
-/

namespace Kvdb.Configuration

open Data Semantics

def mib : ℕ := 1024 * 1024

def gib : ℕ := 1024 * mib

def defaultBlockCache : UInt64 := .ofNat (512 * mib)

def lowMemBlockCache : UInt64 := .ofNat (256 * mib)

def lowMemThreshold : UInt64 := .ofNat (8 * gib)

/-- What the checks read of the storage options. -/
structure StorageConfig where
  writeBufferSize : UInt64 := .ofNat (64 * mib)
  maxWriteBufferNumber : Int32 := 6
  blockCacheSize : UInt64 := defaultBlockCache
deriving DecidableEq

/-- What the checks read of the server options. The namespace is the text of a tenant. -/
structure ServerConfig where
  maxclients : Int64 := 10000
  tenant : Bytes := []
deriving DecidableEq

/-- A configuration. No check reads the other options. -/
structure Config (Other : Type) where
  server : ServerConfig := {}
  storage : StorageConfig := {}
  other : Other
deriving DecidableEq

/-- `KvdbError::Config`, with its message. -/
structure ConfigError where
  message : String
deriving DecidableEq

def ConfigError.text (error : ConfigError) : String := "config error: " ++ error.message

variable {Other : Type}

namespace Config

/-- The size of the memory as the checks compute it, from what `total_memory` returns. -/
def totalMem (memory : UInt64) : UInt64 := memory * 1024

/-- The memory the storage options ask for, as the check computes it. -/
def budget (storage : StorageConfig) : UInt64 :=
  storage.blockCacheSize + storage.writeBufferSize * storage.maxWriteBufferNumber.toInt64.toUInt64

/-- Refuse options that could exhaust the resources. -/
def validate (config : Config Other) (memory : UInt64) : Except ConfigError Unit :=
  if config.storage.writeBufferSize = 0 then .error ⟨"write_buffer_size must be > 0"⟩
  else if config.storage.maxWriteBufferNumber ≤
    0 then .error ⟨"max_write_buffer_number must be > 0"⟩
  else if totalMem memory / 2 < budget config.storage then
    .error ⟨"memory budget " ++ toString (budget config.storage).toNat ++
      " exceeds 50% of physical memory " ++ toString (totalMem memory).toNat⟩
  else if config.server.maxclients ≤ 0 then .error ⟨"maxclients must be > 0"⟩
  else if 255 < config.server.tenant.length then
    .error ⟨"namespace length " ++ toString config.server.tenant.length ++
      " exceeds u8 max 255; would be silently truncated"⟩
  else .ok ()

/-- Take a smaller block cache on a machine with little memory. -/
def adjustForMemory (config : Config Other) (memory : UInt64) : Config Other :=
  if totalMem memory < lowMemThreshold ∧ lowMemBlockCache < config.storage.blockCacheSize then
    { config with storage := { config.storage with blockCacheSize := lowMemBlockCache } }
  else config

end Config

/-- The manager, with the configuration that is in force. -/
structure ConfigManager (Other : Type) where
  current : Config Other

namespace ConfigManager

def get (manager : ConfigManager Other) : Config Other := manager.current

/-- The manager of a new server. A configuration file replaces the defaults. -/
def load (memory : UInt64) (defaults : Other) (file : Option (Config Other)) :
    Except ConfigError (ConfigManager Other) := do
  let config := (file.getD { other := defaults }).adjustForMemory memory
  config.validate memory
  return ⟨config⟩

/-- Replace the configuration, unless the checks refuse the new one. -/
def update (manager : ConfigManager Other) (memory : UInt64) (config : Config Other) :
    Except ConfigError Unit × ConfigManager Other :=
  let config := config.adjustForMemory memory
  match config.validate memory with
  | .ok () => (.ok (), ⟨config⟩)
  | .error error => (.error error, manager)

/-- `PUT /config`: the status and the text of the response. -/
def putConfig (manager : ConfigManager Other) (memory : UInt64) (config : Config Other) :
    (ℕ × String) × ConfigManager Other :=
  match manager.update memory config with
  | (.ok (), manager) => ((200, "OK\n"), manager)
  | (.error error, manager) => ((400, error.text ++ "\n"), manager)

end ConfigManager

section Checks

variable {config : Config Other} {memory : UInt64}

/-- The bytes the storage options ask for. -/
def StorageConfig.needed (storage : StorageConfig) : ℕ :=
  storage.blockCacheSize.toNat + storage.writeBufferSize.toNat *
    storage.maxWriteBufferNumber.toInt.toNat

/-- The checks that are not about memory. -/
structure Config.Sane (config : Config Other) : Prop where
  buffer : 0 < config.storage.writeBufferSize.toNat
  buffers : 0 < config.storage.maxWriteBufferNumber.toInt
  clients : 0 < config.server.maxclients.toInt
  tenant : config.server.tenant.length ≤ 255

/-- The check computes what is needed, up to wrapping around. -/
theorem toNat_budget {storage : StorageConfig} (some : 0 < storage.maxWriteBufferNumber.toInt) :
    (Config.budget storage).toNat = storage.needed % 2 ^ 64 := by
  have number : storage.maxWriteBufferNumber.toInt64.toUInt64.toNat =
      storage.maxWriteBufferNumber.toInt.toNat := by
    have widened := Int32.toInt_toInt64 storage.maxWriteBufferNumber
    have same := @toNat_toUInt64 storage.maxWriteBufferNumber.toInt64 (by omega)
    omega
  rw [Config.budget, StorageConfig.needed, UInt64.toNat_add, UInt64.toNat_mul, number,
    Nat.add_mod_mod]

theorem toNat_half_totalMem :
    (Config.totalMem memory / 2).toNat = memory.toNat * 1024 % 2 ^ 64 / 2 := by
  rw [Config.totalMem, UInt64.toNat_div, UInt64.toNat_mul]
  rfl

/-- What the checks accept. -/
theorem validate_eq_ok_iff :
    config.validate memory = .ok () ↔ config.Sane ∧
      config.storage.needed % 2 ^ 64 ≤ memory.toNat * 1024 % 2 ^ 64 / 2 := by
  rw [Config.validate]
  split_ifs with buffer buffers large clients long
  · refine iff_of_false nofun fun both => both.1.buffer.ne' ?_
    rw [buffer, UInt64.toNat_zero]
  · refine iff_of_false nofun fun both => both.1.buffers.not_ge ?_
    exact Int32.le_iff_toInt_le.mp buffers
  · have number : 0 < config.storage.maxWriteBufferNumber.toInt := by
      rwa [Int32.not_le, Int32.lt_iff_toInt_lt] at buffers
    rw [UInt64.lt_iff_toNat_lt, toNat_budget number, toNat_half_totalMem] at large
    exact iff_of_false nofun fun both => large.not_ge both.2
  · refine iff_of_false nofun fun both => both.1.clients.not_ge ?_
    exact Int64.le_iff_toInt_le.mp clients
  · exact iff_of_false nofun fun both => long.not_ge both.1.tenant
  · have number : 0 < config.storage.maxWriteBufferNumber.toInt := by
      rwa [Int32.not_le, Int32.lt_iff_toInt_lt] at buffers
    rw [UInt64.not_lt, UInt64.le_iff_toNat_le, toNat_budget number, toNat_half_totalMem] at large
    rw [← UInt64.toNat_inj, UInt64.toNat_zero] at buffer
    rw [Int64.not_le, Int64.lt_iff_toInt_lt] at clients
    exact iff_of_true rfl ⟨⟨Nat.pos_of_ne_zero buffer, number, clients, not_lt.mp long⟩, large⟩

/-- What an update does. -/
theorem update_cases (manager : ConfigManager Other) (memory : UInt64) (config : Config Other) :
    (config.adjustForMemory memory).validate memory = .ok () ∧
        manager.update memory config = (.ok (), ⟨config.adjustForMemory memory⟩) ∨
      ∃ error, (config.adjustForMemory memory).validate memory = .error error ∧
        manager.update memory config = (.error error, manager) := by
  rw [ConfigManager.update]
  cases checked : (config.adjustForMemory memory).validate memory with
  | ok => exact .inl ⟨rfl, rfl⟩
  | error error => exact .inr ⟨error, rfl, rfl⟩

end Checks

section Memory

/-- At most half of the memory is needed. -/
def Config.Fits (config : Config Other) (memory : UInt64) : Prop :=
  2 * config.storage.needed ≤ memory.toNat

/-- Whatever is accepted fits in memory, and a configuration that is refused changes
nothing. -/
structure AcceptedFits (config : Config Other) (memory : UInt64) : Prop where
  validated : config.validate memory = .ok () → config.Fits memory
  updated : ∀ manager : ConfigManager Other, (manager.update memory config).1 = .ok () →
    (manager.update memory config).2.get.Fits memory
  refused : ∀ (manager : ConfigManager Other) error, (manager.update memory config).1 =
    .error error →
    (manager.update memory config).2.get = manager.get

/-- Too much is needed, but not in the units and the width of the check. -/
def Config.Overlooked (config : Config Other) (memory : UInt64) : Prop :=
  config.Sane ∧ memory.toNat < 2 * config.storage.needed ∧
    config.storage.needed % 2 ^ 64 ≤ memory.toNat * 1024 % 2 ^ 64 / 2

variable {config : Config Other} {memory : UInt64}

theorem fits_of_validate_iff :
    (config.validate memory = .ok () → config.Fits memory) ↔ ¬ config.Overlooked memory := by
  rw [validate_eq_ok_iff, Config.Fits, Config.Overlooked, ← @Nat.not_le _ memory.toNat]
  tauto

/-- An accepted configuration fits in memory if and only if neither it nor what it is
adjusted to is overlooked. -/
theorem accepted_fits_iff (config : Config Other) (memory : UInt64) :
    AcceptedFits config memory ↔
      ¬ config.Overlooked memory ∧ ¬ (config.adjustForMemory memory).Overlooked memory := by
  rw [← fits_of_validate_iff, ← fits_of_validate_iff]
  constructor
  · rintro ⟨validated, updated, -⟩
    refine ⟨validated, fun checked => ?_⟩
    rcases update_cases ⟨config⟩ memory config with ⟨-, ran⟩ | ⟨error, refused, -⟩
    · have fits := updated ⟨config⟩
      rw [ran] at fits
      exact fits rfl
    · rw [refused] at checked
      cases checked
  · rintro ⟨validated, adjusted⟩
    refine ⟨validated, fun manager accepted => ?_, fun manager error refused => ?_⟩
    · rcases update_cases manager memory config with ⟨checked, ran⟩ | ⟨error, -, ran⟩
      · rw [ran]
        exact adjusted checked
      · rw [ran] at accepted
        cases accepted
    · rcases update_cases manager memory config with ⟨-, ran⟩ | ⟨other, -, ran⟩
      · rw [ran] at refused
        cases refused
      · rw [ran]

/-- The defaults are accepted on a machine with 1 GiB, of which they need seven eighths, and
write buffers of `2 ^ 64` bytes on one with 1 PiB. -/
theorem overlooked_configs :
    let defaults : Config Unit := { other := () }
    let wide : Config Unit :=
      { storage := { writeBufferSize := .ofNat (2 ^ 62), maxWriteBufferNumber := 4 }, other := () }
    (∀ manager : ConfigManager Unit,
        (manager.update (.ofNat gib) defaults).1 = .ok () ∧
          (manager.update (.ofNat gib) defaults).2.get = defaults) ∧
      defaults.validate (.ofNat gib) = .ok () ∧ 8 * defaults.storage.needed = 7 * gib ∧
      wide.validate (.ofNat (2 ^ 50)) = .ok () ∧ 2 ^ 64 ≤ wide.storage.needed := by
  intro defaults wide
  have adjusted : defaults.adjustForMemory (.ofNat gib) = defaults := by decide
  have accepted : defaults.validate (.ofNat gib) = .ok () := by decide
  refine ⟨fun manager => ?_, accepted, by decide, by decide, by decide⟩
  simp [ConfigManager.update, adjusted, accepted, ConfigManager.get]

end Memory

section Runs

variable {memory : UInt64}

theorem load_eq_ok {defaults : Other} {file : Option (Config Other)} {manager : ConfigManager Other}
    (loaded : ConfigManager.load memory defaults file = .ok manager) :
    manager.get.validate memory = .ok () := by
  simp only [ConfigManager.load] at loaded
  cases checked : ((file.getD { other := defaults }).adjustForMemory memory).validate memory with
  | error error =>
    rw [checked] at loaded
    cases loaded
  | ok =>
    rw [checked] at loaded
    cases loaded
    exact checked

/-- A response of status 400 leaves the configuration in force, and the other response puts
the adjusted one in force. -/
theorem putConfig_cases (manager : ConfigManager Other) (memory : UInt64) (config : Config Other) :
    (manager.putConfig memory config).1 = (200, "OK\n") ∧
        (manager.putConfig memory config).2.get = config.adjustForMemory memory ∧
        (config.adjustForMemory memory).validate memory = .ok () ∨
      ∃ error, (manager.putConfig memory config).1 = (400, error.text ++ "\n") ∧
        (manager.putConfig memory config).2 = manager ∧
        (config.adjustForMemory memory).validate memory = .error error := by
  rcases update_cases manager memory config with ⟨checked, ran⟩ | ⟨error, checked, ran⟩
  · simp [ConfigManager.putConfig, ran, checked, ConfigManager.get]
  · exact .inr
      ⟨error, by simp [ConfigManager.putConfig, ran], by
        simp [ConfigManager.putConfig, ran], checked⟩

/-- Whatever is put over HTTP, the configuration in force is one that the checks accept. -/
theorem validate_of_run {defaults : Other} {file : Option (Config Other)}
    {start manager : ConfigManager Other} {puts : List (Config Other)}
    (loaded : ConfigManager.load memory defaults file = .ok start)
    (run : Run (fun manager config => (manager.putConfig memory config).2) (fun _ _ => True)
      start puts manager) : manager.get.validate memory = .ok () := by
  refine @Run.invariant _ _ _ _ _ _ _ (fun manager => manager.get.validate memory = .ok ()) run
    (load_eq_ok loaded) fun manager config _ accepted => ?_
  rcases putConfig_cases manager memory config with ⟨-, current, checked⟩ | ⟨error, -, same, -⟩
  · rw [current, checked]
  · rw [same, accepted]

theorem validate_of_run_of_put : ∃ start, ConfigManager.load (.ofNat gib) () none = .ok start ∧
    (start.putConfig (.ofNat gib) { other := () }).2.get.validate (.ofNat gib) = .ok () :=
  ⟨_, rfl, @validate_of_run _ _ () none _ _ _ rfl (.single trivial)⟩

end Runs

end Kvdb.Configuration
