/-!
What the command line needs from the machine it runs on, and a folder of files in memory that can stand
for one.
-/
namespace SemanticLayer.CommandLine

structure World (m : Type → Type) where
  lookup : String → m (Option String)
  read : String → m (Except String String)
  locate : String → m (Except String (List String))
  isFile : String → m Bool

namespace World

def notFound : String := "No such file or directory (os error 2)"
def notDirectory : String := "Not a directory (os error 20)"
def isDirectory : String := "Is a directory (os error 21)"

end World

structure Folder where
  place : List String
  files : List (List String × String)

namespace Folder

def text? (f : Folder) (name : List String) : Option String :=
  (f.files.find? fun file => f.place ++ file.1 == name).map Prod.snd

def hasFolder (f : Folder) (name : List String) : Bool :=
  name.isPrefixOf f.place
    || f.files.any fun file => name.isPrefixOf (f.place ++ file.1.dropLast)

def enter (f : Folder) (here : List String) (part : String) : Except String (List String) :=
  if !f.hasFolder here then .error World.notDirectory
  else if part.isEmpty || part == "." then .ok here
  else if part == ".." then .ok here.dropLast
  else
    let next := here ++ [part]
    if (f.text? next).isSome || f.hasFolder next then .ok next else .error World.notFound

def locate (f : Folder) (name : String) : Except String (List String) :=
  if name.isEmpty then .error World.notFound
  else (name.splitOn "/").foldlM f.enter (if name.startsWith "/" then [] else f.place)

def read (f : Folder) (name : String) : Except String String := do
  let name ← f.locate name
  match f.text? name with
  | some text => return text
  | none => throw World.isDirectory

def isFile (f : Folder) (name : String) : Bool :=
  match f.read name with
  | .ok _ => true
  | .error _ => false

def world (f : Folder) (environment : List (String × String)) : World Id :=
  ⟨(environment.lookup ·), f.read, f.locate, f.isFile⟩

end Folder

end SemanticLayer.CommandLine
