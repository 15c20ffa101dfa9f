import SourceIndex.Numeric.Binary64
import SourceIndex.Text.Replace

/-!
# The description of a project

A few sentences about who contributed to a project, which languages it is written in and how many people it hangs on.
The wording is fixed, since others look for it.
-/

namespace SourceIndex

/-- A language and the number of files in it. -/
structure LanguageCount where
  language : Text
  count : UInt64
deriving DecidableEq

/-- A contributor and the number of files attributed to them. -/
structure OwnerCount where
  owner : Text
  count : UInt64
deriving DecidableEq

/-- The make-up of a project. -/
structure ProjectStats where
  totalFiles : UInt64
  /-- The languages, the most common first. -/
  languages : List LanguageCount
  /-- The contributors, those with most files first. -/
  owners : List OwnerCount
deriving DecidableEq

namespace ProjectStats

/-- How many languages are named. -/
def maxNamedLanguages : Nat := 3

/-- With fewer contributors a project hangs on few people. -/
def lowBusFactor : Nat := 5

/-- With fewer contributors a project hangs on a moderate number of people. -/
def neutralBusFactor : Nat := 15

/-- A project relies on those who hold more than this share of its files. -/
def reliedUponShare : Binary64 := .ofRat (1 / 10)

/-- The largest percentage that is written. -/
def maxPercentage : Nat := 2147483647

/-- The decimal digits of a number. -/
def decimal (n : Nat) : Text := Nat.toDigits 10 n

/-- The share of the files that a contributor holds. -/
def share (stats : ProjectStats) (owner : OwnerCount) : Binary64 :=
  .ofNat owner.count.toNat / .ofNat stats.totalFiles.toNat

/-- The contributors whom the project relies on. -/
def reliedUpon (stats : ProjectStats) : List OwnerCount :=
  stats.owners.filter fun owner => reliedUponShare.less (stats.share owner)

/-- The average share of the contributors as a percentage without its fraction. -/
def averageOwnership (stats : ProjectStats) : Nat :=
  let sum := stats.owners.foldl (fun sum owner => sum + stats.share owner) (Binary64.finite 0)
  (sum / .ofNat stats.owners.length * .ofNat 100).truncate maxPercentage

/-- How many people contributed to how many files. -/
def contributorSentence (stats : ProjectStats) : Text :=
  "In this repository ".toList ++ decimal stats.owners.length
    ++ (if stats.owners.length = 1 then " committer has".toList else " committers have".toList)
    ++ " contributed to ".toList ++ decimal stats.totalFiles.toNat
    ++ (if stats.totalFiles = 1 then " file. ".toList else " files. ".toList)

/-- The names of the languages to be listed: each but the last with a comma, and the last after the word and. -/
def listLanguages : List LanguageCount → Text
  | [] => []
  | [last] => " and ".toList ++ last.language ++ ". ".toList
  | language :: rest => language.language ++ ", ".toList ++ listLanguages rest

/-- The most important languages. -/
def languageSentence (stats : ProjectStats) : Text :=
  match stats.languages with
  | [language] =>
    "The most important language in this repository is ".toList ++ language.language ++ ". ".toList
  | languages =>
    "The most important languages in this repository are ".toList
      ++ listLanguages (languages.take maxNamedLanguages)

/-- How many people the project hangs on. -/
def busFactorSentence (stats : ProjectStats) : Text :=
  match stats.owners with
  | [] => []
  | top :: _ =>
    let count := stats.owners.length
    if count < lowBusFactor then
      "The project has a low bus factor of ".toList ++ decimal count ++ " and will be in trouble if ".toList
        ++ top.owner ++ " is hit by a bus. ".toList
    else if count < neutralBusFactor then "The project has bus factor of ".toList ++ decimal count ++ ". ".toList
    else "The project has high bus factor of ".toList ++ decimal count ++ ". ".toList

/-- How much an average contributor owns. -/
def ownershipSentence (stats : ProjectStats) : Text :=
  "The average person who commits this project has ownership of ".toList ++ decimal stats.averageOwnership
    ++ "% of files. ".toList

/-- Whom the project relies on; nothing if it relies on nobody. -/
def relianceSentence (stats : ProjectStats) : Text :=
  if stats.reliedUpon.isEmpty then []
  else
    "The project relies on the following people; ".toList
      ++ ", ".toList.intercalate (stats.reliedUpon.map OwnerCount.owner) ++ ". ".toList

/-- The sentences about a project, with the comma before the last language still to be mended. -/
def draft (stats : ProjectStats) : Text :=
  stats.contributorSentence ++ stats.languageSentence ++ stats.busFactorSentence ++ stats.ownershipSentence
    ++ stats.relianceSentence

/-- The sentences about a project. -/
def describe (stats : ProjectStats) : Text := Text.replaceAll ",  and".toList " and".toList stats.draft

end ProjectStats

end SourceIndex
