import SplitPackages.Toml.Record
import SplitPackages.World

/-!
# Worlds as records

A world is a table with a record of options and an array of module records.
Every field but a module's name may be left out; the configuration then keeps
its standard value, a flag is false and a list is empty.
-/

namespace SplitPackages

open Toml

def Config.ofValue? (v : Value) : Option Config := do
  let c := Config.standard
  return ⟨← v.optional Value.flag? c.ignoreUnnamed 0
      ["ignore", "unnamed", "module", "for", "split", "package"],
    ← v.optional Value.text? c.task 1 ["task"],
    ← v.optional Value.texts? c.quietTasks 2 ["quiet", "tasks"]⟩

def ModuleEntry.ofValue? (v : Value) : Option ModuleEntry := do
  return ⟨← v.required Value.text? 0 ["name"],
    ← v.optional Value.flag? false 1 ["unnamed"],
    ← v.optional Value.texts? [] 2 ["reads"],
    ← v.optional Value.texts? [] 3 ["reads", "transitive"],
    ← v.optional Value.texts? [] 4 ["exports"],
    ← v.optional Value.texts? [] 5 ["packages"],
    ← v.optional Value.texts? [] 6 ["problem", "packages"],
    ← v.optional Value.texts? [] 7 ["types"],
    ← v.optional Value.texts? [] 8 ["missing", "types"]⟩

def Config.fields (c : Config) : List Field :=
  [⟨["ignore", "unnamed", "module", "for", "split", "package"], .flag c.ignoreUnnamed,
      some (.flag standard.ignoreUnnamed)⟩,
    ⟨["task"], .text c.task, some (.text standard.task)⟩,
    ⟨["quiet", "tasks"], .texts c.quietTasks, some (.texts standard.quietTasks)⟩]

def ModuleEntry.fields (m : ModuleEntry) : List Field :=
  [⟨["name"], .text m.name, none⟩,
    ⟨["unnamed"], .flag m.unnamed, some (.flag false)⟩,
    ⟨["reads"], .texts m.reads, some (.texts [])⟩,
    ⟨["reads", "transitive"], .texts m.transitiveReads, some (.texts [])⟩,
    ⟨["exports"], .texts m.exports, some (.texts [])⟩,
    ⟨["packages"], .texts m.packages, some (.texts [])⟩,
    ⟨["problem", "packages"], .texts m.problemPackages, some (.texts [])⟩,
    ⟨["types"], .texts m.types, some (.texts [])⟩,
    ⟨["missing", "types"], .texts m.missingTypes, some (.texts [])⟩]

/-- The world that a table describes; it need not be valid. -/
def World.ofValue? (v : Value) : Option World := do
  return ⟨← v.optional Config.ofValue? .standard 0 ["options"],
    ← v.optional (Value.list? ModuleEntry.ofValue?) [] 1 ["module"]⟩

def World.sheet (w : World) : Sheet :=
  [("options", .table (written w.config.fields)),
    ("module", .tables (w.modules.map fun m => written m.fields))]

end SplitPackages
