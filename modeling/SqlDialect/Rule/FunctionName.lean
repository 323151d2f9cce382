import SqlDialect.Rule.Basic

/-!
# Function names

Functions and named constants that Snowflake knows under another name.
-/

namespace SqlDialect.Rule

open Pattern

/-- `DATE_ADD` is `DATEADD`. -/
def dateAdd : Rule where
  id := "FUNC001"
  name := "DATE_ADD to DATEADD"
  category := .function
  edit? _ line := substitute (wholeWord "DATE_ADD") (fun _ => "DATEADD".toList) line

/-- `DATE_DIFF` is `DATEDIFF`. -/
def dateDiff : Rule where
  id := "FUNC002"
  name := "DATE_DIFF to DATEDIFF"
  category := .function
  edit? _ line := substitute (wholeWord "DATE_DIFF") (fun _ => "DATEDIFF".toList) line

/-- `PGDATE_PART` is `DATE_PART`. -/
def datePart : Rule where
  id := "FUNC003"
  name := "PGDATE_PART to DATE_PART"
  category := .function
  edit? _ line := substitute (wholeWord "PGDATE_PART") (fun _ => "DATE_PART".toList) line

/-- The qualifier `pg_catalog` is dropped. -/
def catalogQualifier : Rule where
  id := "FUNC004"
  name := "pg_catalog qualifier dropped"
  category := .function
  edit? _ line :=
    substitute (boundary ++ keyword "pg_catalog" ++ blanks ++ char '.' ++ blanks)
      (fun _ => []) line

/-- `CEILING` is `CEIL`. -/
def ceiling : Rule where
  id := "FUNC005"
  name := "CEILING to CEIL"
  category := .function
  edit? _ line := substitute (wholeWord "CEILING") (fun _ => "CEIL".toList) line

/-- `NOW()` is `CURRENT_TIMESTAMP()`. -/
def now : Rule where
  id := "FUNC006"
  name := "NOW() to CURRENT_TIMESTAMP()"
  category := .function
  edit? _ line :=
    substitute
      (boundary ++ keyword "NOW" ++ blanks ++ char '(' ++ blanks ++ char ')')
      (fun _ => "CURRENT_TIMESTAMP()".toList) line

/-- The cast literal `'now'`, as a dump writes it, is `CURRENT_TIMESTAMP`. -/
def nowLiteral : Rule where
  id := "FUNC007"
  name := "'now' literal to CURRENT_TIMESTAMP"
  category := .function
  edit? _ line :=
    replaceAnywhere
      (keyword "'now'::" ++
        (phrase ["character", "varying"] <|> keyword "varchar" <|> keyword "text") ++ boundary)
      (fun _ => "CURRENT_TIMESTAMP".toList) Match.text line

/-- The time zone `'JST'` is `'Japan'`. -/
def japanTimeZone : Rule where
  id := "FUNC010"
  name := "'JST' time zone to 'Japan'"
  category := .function
  edit? _ line := replaceAnywhere (keyword "'JST'") (fun _ => "'Japan'".toList) Match.text line

end SqlDialect.Rule
