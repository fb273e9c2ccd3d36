import CodeAtlas.Catalog
import CodeAtlas.Resolver
import CodeAtlas.Scope
import CodeAtlas.Suppression

/-! # Builders

A builder gathers the components of one compilation unit into a catalog. The rules of a language
drive it by operations; while suppression is active all but a few of them do nothing. An operation
that fails leaves the state it had reached.
-/

namespace CodeAtlas

/-- Where a construct stands and how it is written. -/
structure Provenance where
  startLine : Int
  endLine : Int
  code : String := ""
  comment : Option String := none

/-- What is learnt about the innermost open component. -/
inductive Enrichment where
  | modifier (word : String)
  | value (code : String)
  | typeSnippet (code : String)
  | typeReference (token : String) (line : Int)
  | declaredType (token : String) (line : Int)
  | superType (token : String) (line : Int)
  | implementedType (token : String) (line : Int)
  | thrownException (token : String) (line : Int)
  | typeParameter (token : String) (line : Int)
  | annotationUse (name : String) (values : Table String) (line : Int)

namespace Enrichment

def apply (r : Resolver) (c : Component) : Enrichment → Component
  | modifier word => c.addModifier word
  | value code => { c with value := some code }
  | typeSnippet code => c.withTypeSnippet code
  | typeReference token line =>
    { c with typeReferences := c.typeReferences ++ [⟨r.resolve token, line⟩] }
  | declaredType token line =>
    { c with invocations := c.invocations ++ [⟨.declaration, r.resolve token, line⟩] }
  | superType token line =>
    { c with superTypes := c.superTypes ++ [r.resolve token],
             invocations := c.invocations ++ [⟨.extension, r.resolve token, line⟩] }
  | implementedType token line =>
    { c with implementedTypes := c.implementedTypes ++ [r.resolve token],
             invocations := c.invocations ++ [⟨.implementation, r.resolve token, line⟩] }
  | thrownException token line =>
    { c with thrownExceptions := c.thrownExceptions ++ [r.resolve token],
             invocations := c.invocations ++ [⟨.exception, r.resolve token, line⟩] }
  | typeParameter token line =>
    { c with invocations := c.invocations ++ [⟨.typeParameter, r.resolve token, line⟩] }
  | annotationUse name values line =>
    { c with
      invocations := c.invocations ++ [⟨.annotated [⟨name, values⟩], r.resolve name, line⟩] }

end Enrichment

/-- The operations of a builder. -/
inductive Op where
  | beginPackage (name : String) (provenance : Provenance)
  | addImport (name : String)
  | openComponent (kind : Kind) (provenance : Provenance) (shortName : Option String)
      (withImports : Bool)
  | nameDeclarator (name : String)
  | close
  | endUnit
  | enterSuppressed
  | exitSuppressed
  | enrich (what : Enrichment)
  | current
  | resolve (token : String)

/-- What an operation answers. -/
inductive Reply where
  | done
  | component (id : ComponentId)
  | name (text : String)
deriving DecidableEq, Repr

structure Builder where
  catalog : Catalog
  path : Option String
  scope : Scope := {}
  resolver : Resolver
  suppression : Suppression

namespace Builder

def start (catalog : Catalog) (path : Option String) (mode : Suppression.Mode)
    (builtin : List (String × String)) : Builder :=
  ⟨catalog, path, {}, { builtin }, { mode }⟩

def store (b : Builder) : Store := b.catalog.store

def withStore (b : Builder) (store : Store) : Builder :=
  { b with catalog := { b.catalog with store } }

def suppressed (b : Builder) : Bool := b.suppression.active

def currentKind? (b : Builder) : Option Kind :=
  b.scope.top?.map fun top => (b.store.get top.component).kind

/-- How many components the next close completes. -/
def completionCount (b : Builder) : Nat := b.scope.groupSize?.getD 1

/-- Add a component to the store and open it. -/
def push (b : Builder) (c : Component) : Builder × ComponentId :=
  let (store, id) := b.store.add c
  ({ b.withStore store with scope := b.scope.push id }, id)

/-- The diagnostic of a package declaration met while components are open. -/
def reentry (b : Builder) (name : String) (line : Int) : Diagnostic where
  kind := .anomalousScopeReentry
  message := "package declaration " ++ quoted name ++ " found while " ++
    toString b.scope.frames.length ++ " component(s) are still open"
  path := b.path
  line := line
  names := (b.scope.openNames b.store).map Prod.fst

/-- Abandon what is open, and report it, unless the scope is empty. -/
def abandonOpen (b : Builder) (name : String) (line : Int) : Builder :=
  if b.scope.frames.isEmpty then b
  else { b with catalog := b.catalog.record (b.reentry name line), scope := b.scope.clear }

/-- Open the package that the declarations of the unit belong to. -/
def beginPackage (b : Builder) (name : String) (prov : Provenance) : Builder × ComponentId :=
  let b := b.abandonOpen name prov.startLine
  { b with resolver := b.resolver.enterPackage name }.push
    { kind := .package, shortName := name, packageName := name, sourceFile := b.path,
      code := prov.code, comment := prov.comment, startLine := prov.startLine, endLine := prov.endLine }

/-- A component as it is when its construct opens. -/
def fresh (b : Builder) (kind : Kind) (prov : Provenance) (shortName : Option String)
    (withImports : Bool) : Component :=
  { kind, shortName, packageName := b.resolver.package, sourceFile := b.path,
    code := prov.code, comment := prov.comment, startLine := prov.startLine, endLine := prov.endLine,
    imports := if withImports then b.resolver.imports else [] }

/-- Name the innermost component, or open a sibling of that name if it has one. -/
def nameDeclarator (b : Builder) (top : Frame) (name : String) : Builder :=
  let c := b.store.get top.component
  if c.hasName then
    let (store, id) := b.store.add { c.sibling with shortName := some name }
    { b.withStore store with scope := b.scope.pushBeside top id }
  else b.withStore (b.store.modify top.component fun c => { c with shortName := some name })

/-- Attach a closed component to the outermost open one whose provisional name is the qualifier
of its name, if there is one. -/
def attach (b : Builder) (id : ComponentId) (name : String) : Builder × Option ComponentId :=
  let qualifier := Dotted.qualifier name
  if qualifier = "" then (b, none)
  else match b.scope.find? b.store qualifier with
    | some parent => (b.withStore (b.store.addChild parent id qualifier), some parent)
    | none => (b, none)

/-- Close the innermost component: name it, attach it and insert it into the catalog. -/
def closeTop (b : Builder) : Outcome Builder Unit :=
  match b.scope.frames with
  | [] => .fail b .scopeUnderflow
  | frame :: below =>
    let name := Scope.nameIn b.store frame below
    let popped := { b with scope := { b.scope with frames := below } }
    let c := b.store.get frame.component
    match c.qualifiedName with
    | some current => .fail popped (.alreadyFinal current name)
    | none =>
      let named := popped.withStore (b.store.modify frame.component (·.withName name))
      let (attached, parent) := named.attach frame.component name
      let inserted := attached.catalog.insert frame.component parent
      match inserted.result with
      | .error fault => .fail { attached with catalog := inserted.state } fault
      | .ok _ =>
        .ok { attached with
          catalog := inserted.state.note (.componentFinalized name c.kind b.path) } ()

/-- Close a number of components, from the innermost one outwards. -/
def closeMany : Nat → Builder → Outcome Builder Unit
  | 0, b => .ok b ()
  | n + 1, b => b.closeTop.andThen (closeMany n)

/-- Close the innermost component together with those declared beside it. -/
def close (b : Builder) : Outcome Builder Unit :=
  match b.scope.groupSize? with
  | none => .fail b .scopeUnderflow
  | some size => closeMany size b

/-- Close whatever is open. -/
def endUnit (b : Builder) : Outcome Builder Unit :=
  if b.suppressed && !b.scope.frames.isEmpty then .fail b .unitHeldOpen
  else closeMany b.scope.frames.length b

/-- The answer to an enrichment: a type reference answers the name it resolved to. -/
def enrichmentReply (r : Resolver) : Enrichment → Reply
  | .typeReference token _ => .name (r.resolve token)
  | _ => .done

/-- Perform one operation. -/
def step (b : Builder) : Op → Outcome Builder Reply
  | .beginPackage name prov =>
    let (b, id) := b.beginPackage name prov
    .ok b (.component id)
  | .addImport name => .ok { b with resolver := b.resolver.addImport name } .done
  | .openComponent kind prov shortName withImports =>
    if b.suppressed then .ok b .done
    else
      let (b, id) := b.push (b.fresh kind prov shortName withImports)
      .ok b (.component id)
  | .nameDeclarator name =>
    if b.suppressed then .ok b .done
    else match b.scope.top? with
      | none => .fail b .scopeUnderflow
      | some top => .ok (b.nameDeclarator top name) .done
  | .close => if b.suppressed then .ok b .done else b.close.andThen (.ok · .done)
  | .endUnit => b.endUnit.andThen (.ok · .done)
  | .enterSuppressed => .ok { b with suppression := b.suppression.enter } .done
  | .exitSuppressed => .ok { b with suppression := b.suppression.exit } .done
  | .enrich what =>
    if b.suppressed then .ok b .done
    else match b.scope.top? with
      | none => .fail b .scopeUnderflow
      | some top =>
        .ok (b.withStore (b.store.modify top.component fun c => what.apply b.resolver c))
          (enrichmentReply b.resolver what)
  | .current =>
    match b.scope.top? with
    | none => .fail b .scopeUnderflow
    | some top => .ok b (.component top.component)
  | .resolve token => .ok b (.name (b.resolver.resolveIn b.suppressed token))

/-- Perform operations in order until one fails. -/
def run (b : Builder) : List Op → Outcome Builder Unit
  | [] => .ok b ()
  | op :: rest => (b.step op).andThen (run · rest)

end Builder

end CodeAtlas
