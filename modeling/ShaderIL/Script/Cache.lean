import ShaderIL.Cache.Store

/-!
# Working on a cache

A list of `CacheStep`s put, get and clear entries of a cache, or tamper with its files. Without a
cache nothing is kept, and an entry that is put keeps the scheme number it had.
-/

namespace ShaderIL.Script

/-- A step on a cache. -/
inductive CacheStep where
  | put (k : Key) (e : Entry)
  | get (k : Key)
  | clear
  /-- Replace a file by text. -/
  | overwrite (k : Key) (text : String)
  /-- Store an entry as it is. -/
  | plant (k : Key) (e : Entry)
  /-- Keep the first bytes of a file. -/
  | truncate (k : Key) (keep : Nat)

/-- What a step on a cache shows. -/
inductive CacheReply where
  | nothing
  | schema (n : Nat)
  | entry (e : Entry)
  | error

/-- What getting an entry shows. -/
def CacheReply.ofResult : Except EntryError (Option Entry) → CacheReply
  | .ok none => .nothing
  | .ok (some e) => .entry e
  | .error _ => .error

/-- Carry out a step on a store. -/
def CacheStep.onStore (s : Store) : CacheStep → CacheReply × Store
  | .put k e => (.schema e.stamped.schema, s.put k e)
  | .get k => (.ofResult (s.get k), s)
  | .clear => (.nothing, {})
  | .overwrite k text => (.nothing, s.insert k (.text text))
  | .plant k e => (.nothing, s.insert k (.entry e))
  | .truncate k keep =>
    match s.find? k with
    | some f => (.nothing, s.insert k (f.truncate keep))
    | none => (.error, s)

/-- Carry out a step where there may be no store. -/
def CacheStep.perform (c : Option Store) (step : CacheStep) : CacheReply × Option Store :=
  match c, step with
  | some s, step =>
    let (r, s) := step.onStore s
    (r, some s)
  | none, .put _ e => (.schema e.schema, none)
  | none, _ => (.nothing, none)

/-- Carry out steps in order; every reply comes with the names of the files after it. -/
def CacheStep.performAll (c : Option Store) : List CacheStep → List (CacheReply × List String)
  | [] => []
  | step :: rest =>
    let (r, c) := step.perform c
    (r, (c.map Store.fileNames).getD []) :: performAll c rest

end ShaderIL.Script
