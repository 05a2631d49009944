import ProotDistro.Lib.Text
import ProotDistro.Lib.Dict

/-!
# `execenv`: variables that are the host's

proot hands its own environment on to the guest, so a variable an image sets is one proot and
the loader read first. The two name spaces they read are refused to every value that came out
of a file describing an image.
-/

namespace ProotDistro

abbrev Str := List Char

namespace Execenv

def ldPrefix : Str := "LD_".toList

def prootPrefix : Str := "PROOT_".toList

def containerMarker : Str := "proot-distro".toList

def identityEnvKeys : List Str :=
  ["PD_CONTAINER".toList, "PD_IMAGE".toList, "PD_IMAGE_ID".toList, "container".toList]

/-- The longest `NAME=value` string an exec accepts. -/
def maxEnvStringBytes : Nat := 32 * 4096

/-- Where proot keeps linked files; it is the program's own to say. -/
def l2sDirVar : Str := "PROOT_L2S_DIR".toList

/-- The `PATH` of a session or a step that has none of its own. -/
def defaultPathEnv (isTermux : Bool) (termuxPrefix : Str) : Str :=
  "/usr/local/sbin:/usr/local/bin:/usr/sbin:/usr/bin:/sbin:/bin:/usr/local/games:/usr/games".toList ++
    if isTermux then ':' :: termuxPrefix ++ "/bin:/system/bin:/system/xbin".toList else []

def isHostExecVar (key : Str) : Bool := ldPrefix.isPrefixOf key || prootPrefix.isPrefixOf key

def utf8Length (s : Str) : Nat := (s.map Char.utf8Size).sum

/-- Whether `key=value` can be one string of an exec's environment. -/
def isExportable (key value : Str) : Bool :=
  '\x00' ∉ key && '\x00' ∉ value && utf8Length key + 1 + utf8Length value < maxEnvStringBytes

/-- `entry.partition("=")` of an entry that has one. -/
def envPair (entry : Str) : Option (Str × Str) :=
  if '=' ∈ entry then some (Text.partition '=' entry) else none

def envEntry (pair : Str × Str) : Str := pair.1 ++ '=' :: pair.2

/-- A variable is read back from its entry. -/
theorem envPair_envEntry {pair : Str × Str} (h : '=' ∉ pair.1) :
    envPair (envEntry pair) = some pair := by
  unfold envPair envEntry
  rw [if_pos (by simp), Text.partition_append h]

/-- What is read as a name has no equals sign. -/
theorem notMem_of_envPair {entry : Str} {pair : Str × Str} (h : envPair entry = some pair) :
    '=' ∉ pair.1 := by
  unfold envPair at h
  split at h
  · cases h
    exact Text.notMem_partition_fst '=' entry
  · cases h

/-- An environment is read back from the list it is kept as. -/
theorem filterMap_envPair {pairs : List (Str × Str)} (h : ∀ x ∈ pairs, '=' ∉ x.1) :
    (pairs.map envEntry).filterMap envPair = pairs := by
  rw [List.filterMap_map]
  have hall : pairs.filterMap (envPair ∘ envEntry) = pairs.filterMap some :=
    List.filterMap_congr fun x hx => envPair_envEntry (h x hx)
  rw [hall, List.filterMap_some]

end Execenv

end ProotDistro
