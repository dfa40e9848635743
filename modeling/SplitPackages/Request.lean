import SplitPackages.Config
import SplitPackages.Declaration
import SplitPackages.Description
import SplitPackages.Resolution
import SplitPackages.Visibility

/-!
# Requests

A `Request` is one operation on an environment, and `Answer` is what it gives.
Requests build the graph, look something up, or ask about what is there.
`Request.run` does one request; every history of an environment is a list of
requests.
-/

namespace SplitPackages

inductive Request where
  -- building the graph
  | addModule (name : String) (unnamed : Bool)
  | addRead (m target : ModuleId)
  | addTransitiveRead (m target : ModuleId)
  | addExport (m : ModuleId) (path : Path)
  | declarePackage (m : ModuleId) (path : Path)
  | declareProblem (m : ModuleId) (path : Path)
  | declareType (m : ModuleId) (qualified : String)
  | markMissing (p : PackageId)
  -- lookups
  | view (m : ModuleId) (path : Path)
  | child (p : PackageId) (m : ModuleId) (name : String)
  | strict (p : PackageId) (name : String)
  | relaxed (p : PackageId) (name : String)
  | search (p : PackageId) (m : ModuleId) (name : String)
  | addChild (p below : PackageId) (m : ModuleId)
  | learnMissing (p : PackageId) (name : String)
  | combine (candidate previous : Option Ref) (m : ModuleId)
  | combineAll (candidates : List (Option Ref)) (m : ModuleId)
  | addToSplit (p other : PackageId)
  | viewFor (p : PackageId) (client : ModuleId) (preferOwn : Bool)
  | resolve (m : ModuleId) (path : Path)
  | resolveType (m : ModuleId) (qualified : String)
  -- questions
  | canRead (m target : ModuleId)
  | canAccess (m : ModuleId) (p : PackageId)
  | exportsPackage (m : ModuleId) (path : Path)
  | module (m : ModuleId)
  | moduleName (m : ModuleId)
  | moduleNamed (name : String)
  | declared (m : ModuleId) (path : Path)
  | known (p : PackageId) (name : String)
  | rank (candidate : Option Ref)
  | subsumes (p other : PackageId)
  | incarnation (p : PackageId) (m : ModuleId)
  | isDeclaredIn (p : PackageId) (m : ModuleId)
  | declaring (p : PackageId)
  | typeIn (p : PackageId) (name : String)
  | knowsType (p : PackageId) (name : String)
  | typeOfModule (p : PackageId) (m : ModuleId) (name : String)
  | typeFor (p : PackageId) (m : ModuleId) (name : String)
  | package (p : PackageId)
  | type (t : TypeId)
  | display (p : PackageId)
  | describe (binding : Option Ref)
  deriving DecidableEq

inductive Answer where
  | done
  | module (id : ModuleId)
  | module? (id : Option ModuleId)
  | modules (ids : List ModuleId)
  | package (id : PackageId)
  | package? (id : Option PackageId)
  | ref (ref : Option Ref)
  | type (id : TypeId)
  | type? (id : Option TypeId)
  | resolution (outcome : TypeResolution)
  | flag (value : Bool)
  | rank (rank : Rank)
  | text (text : String)
  | moduleRecord (id : ModuleId) (record : Module)
  | packageRecord (record : Package)
  | typeRecord (record : TypeRecord)
  | refused (error : GraphError)
  | failed (error : TypeError)
  deriving DecidableEq

/-- The answer that a builder gives. -/
def Answer.ofGraph {α : Type} (ok : α → Answer) : Except GraphError α → Answer
  | .ok a => ok a
  | .error e => .refused e

/-- The answer that a type lookup gives. -/
def Answer.ofType : Except TypeError (Option TypeId) → Answer
  | .ok t => .type? t
  | .error e => .failed e

namespace Request

open Lookup in
def run (config : Config) : Request → Lookup Answer
  | addModule name unnamed => .module <$> update (.addModule name unnamed)
  | addRead m target => (fun _ => .done) <$> update (.addRead m target)
  | addTransitiveRead m target => (fun _ => .done) <$> update (.addTransitiveRead m target)
  | addExport m path => (fun _ => .done) <$> update (.addExport m path)
  | declarePackage m path => .ofGraph .package <$> update (.declarePackage m path)
  | declareProblem m path => .ofGraph .package <$> update (.declareProblem m path)
  | declareType m qualified => .ofGraph .type <$> update (.declareType m qualified)
  | markMissing p => (fun _ => .done) <$> update (.markMissing p)
  | view m path => (fun ref => .ref (some ref)) <$> Lookup.view m path
  | child p m name => .package? <$> Lookup.child p name m
  | strict p name => .ref <$> Lookup.strict p name
  | relaxed p name => .ref <$> Lookup.relaxed p name
  | search p m name => .package? <$> Lookup.search p name m
  | addChild p below m => .package <$> Lookup.addChild p below m
  | learnMissing p name => (fun _ => .done) <$> update (.learnMissing p name)
  | combine candidate previous m => .ref <$> Lookup.combine candidate previous m
  | combineAll candidates m => .ref <$> Lookup.combineAll candidates m
  | addToSplit p other => do
    update (.addToSplit p other)
    return .packageRecord (← Lookup.package p)
  | viewFor p client preferOwn =>
    .package? <$> Lookup.viewFor config.ignoreUnnamed p client preferOwn
  | resolve m path => .package? <$> Lookup.resolve m path
  | resolveType m qualified => .ofGraph .resolution <$> Lookup.resolveType m qualified
  | canRead m target => .flag <$> ask (·.canRead m target)
  | canAccess m p => .flag <$> ask (·.canAccess m p)
  | exportsPackage m path => do return .flag ((← Lookup.module m).exportsPackage path)
  | module m => .moduleRecord m <$> Lookup.module m
  | moduleName m => .text <$> ask (·.moduleName m)
  | moduleNamed name => do return .module? ((← get).env.moduleNamed name)
  | declared m path => .package? <$> ask (·.declared m path)
  | known p name => do return .ref ((← Lookup.package p).known.get? name)
  | rank candidate => .rank <$> ask (·.rank candidate)
  | subsumes p other => .flag <$> ask (·.subsumes p other)
  | incarnation p m => .package? <$> ask (·.incarnation p m)
  | isDeclaredIn p m => .flag <$> ask (·.isDeclaredIn p m)
  | declaring p => do return .modules (← Lookup.package p).declaring
  | typeIn p name => .type? <$> ask (·.typeIn p name)
  | knowsType p name => .flag <$> ask (·.knowsType p name)
  | typeOfModule p m name => .type? <$> ask (·.typeOfModule p m name)
  | typeFor p m name => .ofType <$> ask (·.typeFor p name m)
  | package p => .packageRecord <$> Lookup.package p
  | type t => .typeRecord <$> ask (·.typeRecord t)
  | display p => .text <$> ask (·.display p)
  | describe binding => .text <$> ask (·.describe binding)

end Request

end SplitPackages
