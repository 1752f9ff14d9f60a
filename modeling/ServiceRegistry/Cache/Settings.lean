import ServiceRegistry.Text.Blank

/-!
# When the cache is refreshed
-/

namespace ServiceRegistry

set_option autoImplicit false

inductive RefreshMode where
  | interval
  | onDirty
  deriving DecidableEq, Repr

def RefreshMode.name : RefreshMode → String
  | .interval => "Interval"
  | .onDirty => "OnDirty"

structure UnknownRefreshMode where
  word : String
  deriving DecidableEq, Repr

def UnknownRefreshMode.message (e : UnknownRefreshMode) : String :=
  "unknown cache refresh mode '" ++ e.word ++ "'"

def RefreshMode.parse (text : String) : Except UnknownRefreshMode RefreshMode :=
  let word := Text.lower (Text.trim text)
  if word = "interval" then .ok .interval
  else if word = "on-dirty" ∨ word = "on_dirty" then .ok .onDirty
  else .error ⟨word⟩

structure CacheSettings where
  /-- Time between refreshes, in milliseconds. -/
  refreshInterval : Nat := 30000
  mode : RefreshMode := .onDirty
  /-- Quiet time after a change before a refresh, in milliseconds. -/
  debounce : Nat := 500
  deriving DecidableEq, Repr

end ServiceRegistry
