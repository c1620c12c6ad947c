import DevSpecs.Report.Json
import DevSpecs.Report.Text

/-!
# Reports

A report is written for readers or for programs.
-/

namespace DevSpecs

/-- For whom a report is written. -/
inductive Format where
  /-- For readers. -/
  | text
  /-- For programs. -/
  | json
  deriving DecidableEq, Repr

structure ReportStyle where
  format : Format := .text
  verbosity : Verbosity := .normal
  /-- Whether reports for readers have styles. -/
  color : Bool := true
  deriving DecidableEq, Repr

namespace ReportStyle

/-- What writes the reports for readers. -/
def formatter (s : ReportStyle) : Formatter :=
  { verbosity := s.verbosity, color := s.color }

def ofResolution (s : ReportStyle) (r : Resolution) : Text :=
  match s.format with
  | .text => s.formatter.resolution r
  | .json => r.toJson.document

def ofGenerated (s : ReportStyle) (g : GeneratedEnvironment) : Text :=
  match s.format with
  | .text => s.formatter.generated g
  | .json => g.toJson.document

end ReportStyle

end DevSpecs
