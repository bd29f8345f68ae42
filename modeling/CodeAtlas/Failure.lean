import CodeAtlas.Data.Moment
import CodeAtlas.Text.Quoted
import CodeAtlas.Text.Utf8

/-!
# Failures

Every way in which an operation can fail, and the text that reports it.
-/

namespace CodeAtlas

inductive Failure where
  | badText (fault : Text.Utf8.Fault)
  | missingFile (path : String)
  | isDirectory (path : String)
  | denied (path : String)
  | nameTooLong (path : String)
  | inTheWay (path : String)
  | outside (path base : String)
  /-- A language that is not known; `known` are the ones that are. -/
  | unknownLanguage (name : String) (known : List String)
  | languageOff (name : String)
  | malformedSettings
  /-- A settings file that holds something other than named sections. -/
  | settingsNotNamed
  /-- Settings with an unknown section or a value of a wrong type. -/
  | invalidSettings
  | agentsNotNamed
  | badIgnorePattern
  | badPattern
  | noRepository (path : String)
  | commandFailed (command : List String) (output : String)
  | badDate (text : String) (flaw : Moment.Flaw)
  | badNumber (text : String)
  | mixedDates
  | dateOutOfRange
  | storeDown
  | storeFailed (call : String)
  | missingField (name : String)
  | wrongType
  /-- An empty text where a first line is needed, or an empty list where an element is. -/
  | nothingFirst
  | zeroStep
  | keyValueMissing
  | keyValueDown (reason : String)
  | keyRefused (reason : String)
  | modelFailed (reason : String)
  | crewFailed (reason : String)
  | noIndex (root : String)
  | unknownSymbol (name : String)
  | exit (code : Int)
  | noSuchTool
deriving DecidableEq, Repr

namespace Failure

def listed (names : List String) : String :=
  "[" ++ Text.join ", " (names.map fun n => "'" ++ n ++ "'") ++ "]"

def dateMessage (text : String) : Moment.Flaw → String
  | .malformed => "Invalid isoformat string: " ++ Text.quoted text
  | .year => "year 0 is out of range"
  | .month => "month must be in 1..12"
  | .dayOfMonth => "day is out of range for month"
  | .hour => "hour must be in 0..23"
  | .minute => "minute must be in 0..59"
  | .second => "second must be in 0..59"
  | .offset =>
      "offset must be a timedelta strictly between -timedelta(hours=24) and timedelta(hours=24)"

def message : Failure → String
  | .badText fault => fault.message
  | .missingFile path => "[Errno 2] No such file or directory: '" ++ path ++ "'"
  | .isDirectory path => "[Errno 21] Is a directory: '" ++ path ++ "'"
  | .denied path => "[Errno 13] Permission denied: '" ++ path ++ "'"
  | .nameTooLong path => "[Errno 36] File name too long: '" ++ path ++ "'"
  | .inTheWay path => "[Errno 17] File exists: '" ++ path ++ "'"
  | .outside path base => "'" ++ path ++ "' is not in the subpath of '" ++ base ++
      "' OR one path is relative and the other is absolute."
  | .unknownLanguage name known =>
    "Unsupported language: " ++ name ++ ". Available: " ++ listed known
  | .languageOff name => "Language not enabled: " ++ name
  | .malformedSettings => "malformed document"
  | .settingsNotNamed => "settings must be named sections"
  | .invalidSettings => "invalid settings"
  | .agentsNotNamed => "agents must be named sections"
  | .badIgnorePattern => "invalid ignore pattern"
  | .badPattern => "invalid pattern"
  | .noRepository path => "No VCS detected in " ++ path ++ ". Expected .git/ or .hg/ directory."
  | .commandFailed command output =>
    "VCS command failed: " ++ Text.join " " command ++ "\nstderr: " ++ output
  | .badDate text flaw => dateMessage text flaw
  | .badNumber text => "invalid literal for int() with base 10: " ++ Text.quoted text
  | .mixedDates => "can't compare offset-naive and offset-aware datetimes"
  | .dateOutOfRange => "date value out of range"
  | .storeDown => "qdrant is down"
  | .storeFailed call => "qdrant " ++ call ++ " failed"
  | .missingField name => "'" ++ name ++ "'"
  | .wrongType => "wrong type"
  | .nothingFirst => "list index out of range"
  | .zeroStep => "range() arg 3 must not be zero"
  | .keyValueMissing => "redis package not installed"
  | .keyValueDown reason => reason
  | .keyRefused reason => reason
  | .modelFailed reason => reason
  | .crewFailed reason => reason
  | .noIndex root => "No index found at " ++ root ++
      "/.hammy/index.json\nRun `hammy index` first to build the index."
  | .unknownSymbol name => "Symbol '" ++ name ++ "' not found"
  | .exit code => toString code
  | .noSuchTool => "no such tool"

end Failure

end CodeAtlas
