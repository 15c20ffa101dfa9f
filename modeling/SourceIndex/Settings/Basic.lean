import SourceIndex.File.Extension

/-!
# Settings

The settings that all operations share, and how a document of optional values becomes settings: a value that is
missing takes its default, a minified length that is not positive does too, and anything else out of order is an
error.  Of several errors the split limit's comes first, then the whitelist's, then the blacklist's.
-/

namespace SourceIndex

/-- The settings of all operations. -/
structure Settings where
  /-- How many characters of a content are searched for words. -/
  splitLimit : Nat
  /-- The average length of a line above which a file counts as minified. -/
  minifiedLength : Nat
  /-- The extensions that are never binary nor minified. -/
  whitelist : List Text
  /-- The extensions that are always binary. -/
  blacklist : List Text
  /-- Whether the content decides about a file whose extension is not known. -/
  guessBinary : Bool
  /-- Whether terms next to each other in a query all have to match. -/
  matchAll : Bool
deriving DecidableEq

/-- The lists of extensions that a document may give. -/
inductive ExtensionList where
  | whitelist
  | blacklist
deriving DecidableEq

/-- The key of a list of extensions in a document. -/
def ExtensionList.key : ExtensionList → Text
  | .whitelist => "binary_whitelist".toList
  | .blacklist => "binary_blacklist".toList

/-- What is wrong with a document of settings. -/
inductive SettingsError where
  /-- The text is no document, or a key or the type of a value is unknown. -/
  | malformed
  | zeroSplitLimit
  | invalidExtension (list : ExtensionList) (entry : Text)
deriving DecidableEq

/-- The explanation of an error; none for a document that cannot be read at all. -/
def SettingsError.message? : SettingsError → Option Text
  | .malformed => none
  | .zeroSplitLimit => some "max_split_length must be greater than zero".toList
  | .invalidExtension list entry =>
    some ("invalid extension '".toList ++ entry ++ "' in ".toList ++ list.key)

namespace Settings

/-! ### Lists of extensions -/

/-- Whether no name can have the extension: it holds white space or separates folders. -/
def isInvalidExtension (entry : Text) : Bool := entry.any fun c => Text.isWhitespace c || c == '/' || c == '\\'

/-- The extensions of a list with commas, in the spelling in which they are compared; each stands once. -/
def parseExtensions (list : ExtensionList) (value : Text) : Except SettingsError (List Text) :=
  let entries := Extension.normalizeAll (value.splitOn ',')
  match entries.find? isInvalidExtension with
  | some entry => .error (.invalidExtension list entry)
  | none => .ok entries.eraseDups

/-! ### Defaults -/

/-- How many characters of a content are searched for words by default. -/
def defaultSplitLimit : Nat := 100000

/-- The average length of a line above which a file counts as minified by default. -/
def defaultMinifiedLength : Nat := 255

/-- The extensions that are binary by default, with commas. -/
def defaultBlacklist : Text :=
  ("woff,eot,cur,dm,xpm,emz,db,scc,idx,mpp,dot,pspimage,stl,dml,wmf,rvm,resources,tlb,docx,doc,xls,xlsx,ppt,pptx,"
    ++ "msg,vsd,chm,fm,book,dgn,blend,mdl,pdf,swf,mov,mp4,mp3,wav,avi,flv,mkv,png,jpg,jpeg,gif,bmp,ico,tif,tiff,psd,"
    ++ "zip,gz,tgz,bz2,xz,7z,rar,jar,war,class,exe,dll,so,dylib,o,a,lib,obj,pyc,pyo,bin,dat,iso,img,dmg,ttf,otf,"
    ++ "woff2").toList

/-- The settings of an empty document. -/
def default : Settings where
  splitLimit := defaultSplitLimit
  minifiedLength := defaultMinifiedLength
  whitelist := []
  -- the list is in order
  blacklist := (parseExtensions .blacklist defaultBlacklist).toOption.getD []
  guessBinary := true
  matchAll := true

set_option maxRecDepth 4000 in
/-- The default list is its own parse: it is written in the spelling in which extensions are compared. -/
theorem default_blacklist : default.blacklist = defaultBlacklist.splitOn ',' := by
  have hparse : ∃ t, defaultBlacklist = t ∧ (parseExtensions .blacklist t).toOption.getD [] = t.splitOn ',' := by
    -- the parts of the list are joined first, since reading the characters of a joined string is slow
    unfold defaultBlacklist
    simp only [String.reduceAppend]
    refine ⟨_, String.toList_ofList, ?_⟩
    decide +kernel
  obtain ⟨t, ht, hparse⟩ := hparse
  unfold default
  rw [ht, hparse]

/-! ### Documents -/

/-- The values which a document gives, each optional. -/
structure Document where
  splitLimit : Option Nat
  minifiedLength : Option Int
  whitelist : Option Text
  blacklist : Option Text
  guessBinary : Option Bool
  matchAll : Option Bool
deriving DecidableEq

/-- The minified length for a given one. -/
def effectiveMinifiedLength (given : Option Int) : Nat :=
  match given with
  | some n => if 0 < n then n.toNat else defaultMinifiedLength
  | none => defaultMinifiedLength

/-- The settings of a document. -/
def ofDocument (doc : Document) : Except SettingsError Settings := do
  let splitLimit := doc.splitLimit.getD default.splitLimit
  if splitLimit = 0 then throw .zeroSplitLimit
  let whitelist ← match doc.whitelist with
    | some value => parseExtensions .whitelist value
    | none => pure default.whitelist
  let blacklist ← match doc.blacklist with
    | some value => parseExtensions .blacklist value
    | none => pure default.blacklist
  return {
    splitLimit
    minifiedLength := effectiveMinifiedLength doc.minifiedLength
    whitelist
    blacklist
    guessBinary := doc.guessBinary.getD default.guessBinary
    matchAll := doc.matchAll.getD default.matchAll }

/-- The settings of a text, given how a text is decoded into a document. -/
def ofText (decode? : Text → Option Document) (t : Text) : Except SettingsError Settings :=
  match decode? t with
  | some doc => ofDocument doc
  | none => .error .malformed

end Settings

end SourceIndex
