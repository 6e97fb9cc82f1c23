import Blueprint.Setting.Value

/-!
Layering settings. Mappings are merged key by key, where a null takes the key out; any other value
of the overlay replaces what lies below it.
-/

namespace Blueprint.Setting

mutual

def merge (base : Setting) : Setting → Setting
  | mapping overlay =>
    match base with
    | mapping entries => mapping (mergeEntries entries entries overlay)
    | _ => mapping overlay
  | overlay => overlay

/-- Applies the entries of an overlay to `result`, with the values of `base` below them. -/
def mergeEntries (base result : Entries) : Entries → Entries
  | [] => result
  | (k, v) :: r =>
    let next :=
      if v.isNull then result.erase k
      else
        match base.get? k with
        | some below => result.insert k (merge below v)
        | none => result.insert k v
    mergeEntries base next r

end

end Blueprint.Setting
