import ConfigScript.Config
import ConfigScript.Library.Catalogue
import ConfigScript.Source

/-! # Providers

A provider answers import paths with ready units, such as those of the library, or with the text of
scripts. Asking for a path can also fail or break down. -/

namespace ConfigScript

/-- What a provider holds at a path. -/
inductive Supply (α : Type)
  | item (a : α)
  | failure
  | crash

/-- Answers import paths. The size bounds how many of its scripts can be in progress at once, each
imported by the one before; for a table it is the number of entries. -/
structure Provider (α : Type) where
  supply? : String → Option (Supply α)
  size : Nat

namespace Provider

def ofEntries {α : Type} (entries : List (String × Supply α)) : Provider α :=
  ⟨fun path => entries.lookup path, entries.length⟩

def ofItems {α : Type} (items : List (String × α)) : Provider α :=
  .ofEntries (items.map fun (path, a) => (path, .item a))

/-- A provider that fails for the given paths and holds nothing else. -/
def failing {α : Type} (paths : List String) : Provider α :=
  .ofEntries (paths.map fun path => (path, .failure))

/-- A provider that breaks down for the given paths and holds nothing else. -/
def crashing {α : Type} (paths : List String) : Provider α :=
  .ofEntries (paths.map fun path => (path, .crash))

def ofTexts (texts : List (String × String)) : Provider Source :=
  .ofItems (texts.map fun (path, text) => (path, Source.ofText text))

end Provider

/-- What asking providers for a path comes to; a search that ends empty tells whether any of them
failed. -/
inductive Search (α : Type)
  | found (a : α)
  | missing (failed : Bool)
  | crashed

/-- Asks providers in order. The first that holds an item, or breaks down, ends the search. -/
def search {α : Type} (path : String) : List (Provider α) → Search α
  | [] => .missing false
  | p :: ps =>
    match p.supply? path with
    | some (.item a) => .found a
    | some .crash => .crashed
    | none => search path ps
    | some .failure =>
      match search path ps with
      | .missing _ => .missing true
      | result => result

def Library.provider : Provider ImportedUnit :=
  .ofItems (Library.definitions.map fun (path, d) => (path, { definition := d }))

/-- What scripts are compiled with: the options and the providers that answer imports. The library
comes first, units come before scripts. -/
structure Environment where
  config : Config := {}
  units : List (Provider ImportedUnit) := []
  scripts : List (Provider Source) := []

end ConfigScript
