import ProotDistro.BuildEngine.Stage
import Mathlib.Data.List.Sort

/-!
# `build_cache`: the recipe of a step

A recorded step is found by the hash of its recipe: the digest of the layer under it, the
instruction, and what the caller adds. `recipeMessage` is the text that is hashed, its UTF-8
encoding and the digest itself being one-to-one in it.
-/

namespace ProotDistro

open Dockerfile BuildEngine

namespace BuildCache

def canonicalValue : Value → Str
  | .text s => s
  | .exec argv => Json.dumpsStrList argv
  | .trigger raw => raw

/-- `f"{k}={v}"` of the sorted entries -/
def sortedEntries (d : Dict Str Str) : List Str :=
  (d.insertionSort fun x y => x.1 ≤ y.1).map Execenv.envEntry

def canonicalFlags (flags : Dict Str Str) : Str := ['&'].intercalate (sortedEntries flags)

def heredocText (body : Str) : Str := "<<".toList ++ body ++ ">>".toList

/-- What the recipe hash is taken of. -/
def recipeMessage (parentLayerDigest : Str) (instr : Instr) (extraInputs : Str) : Str :=
  parentLayerDigest ++ '\x00' :: instr.name.name ++ '\x00' :: canonicalFlags instr.flags ++
    '\x00' :: canonicalValue instr.value ++ '\x00' :: instr.heredocs.flatMap heredocText ++
    '\x00' :: extraInputs

def computeRecipeHash (b : Build) (parentLayerDigest : Str) (instr : Instr) (extraInputs : Str) :
    Str :=
  b.sha256 (recipeMessage parentLayerDigest instr extraInputs)

def lookup (w : World) (recipe : Str) : Option CacheEntry :=
  if recipe = [] then none else Dict.get w.cacheIndex recipe

def record (w : World) (recipe : Str) (entry : CacheEntry) : World :=
  { w with cacheIndex := Dict.set w.cacheIndex recipe entry }

end BuildCache

end ProotDistro
