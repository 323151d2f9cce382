import SqlDialect.Rule.Basic
import SqlDialect.Text.Number

/-!
# Column types

Names of column types that Snowflake spells differently or does not have, with their lengths,
precisions and scales.
-/

namespace SqlDialect.Rule

open Pattern

/-- The largest precision of a fixed-point number. -/
def maxPrecision : Nat := 38

/-- The name of a fixed-point type. -/
def fixedPointName : Pattern := keyword "DECIMAL" <|> keyword "NUMERIC"

/-- A fixed-point type with its precision and scale. -/
def fixedPoint : Pattern :=
  boundary ++ group "type" fixedPointName ++ blanks ++ char '(' ++
    blanks ++ group "precision" digits ++ blanks ++ char ',' ++ blanks ++
    group "scale" digits ++ blanks ++ char ')'

/-- The name of a character type. -/
def charName : Pattern := optional (keyword "VAR") ++ keyword "CHAR"

/-- `CHAR(n BYTE)` and `CHAR(n CHAR)` lose the unit of their length. -/
def charLengthUnit : Rule where
  id := "TYPE001"
  name := "CHAR(n BYTE) length unit dropped"
  category := .dataType
  edit? _ line :=
    substitute
      (boundary ++ group "type" charName ++ blanks ++
        char '(' ++ blanks ++ group "length" digits ++ gap ++
        (keyword "BYTE" <|> keyword "CHAR") ++ blanks ++ char ')')
      (fun m => m.textOf "type" ++ ['('] ++ m.textOf "length" ++ [')']) line

/-- `NVARCHAR` is `VARCHAR`. -/
def nvarchar : Rule where
  id := "TYPE002"
  name := "NVARCHAR to VARCHAR"
  category := .dataType
  edit? _ line := substitute (wholeWord "NVARCHAR") (fun _ => "VARCHAR".toList) line

/-- `NCHAR` is `CHAR`. -/
def nchar : Rule where
  id := "TYPE003"
  name := "NCHAR to CHAR"
  category := .dataType
  edit? _ line := substitute (wholeWord "NCHAR") (fun _ => "CHAR".toList) line

/-- The name of a floating-point type with its size. -/
def floatWithSize : Pattern := boundary ++ keyword "FLOAT" ++ one (.oneOf ['4', '8']) ++ boundary

/-- `FLOAT4` and `FLOAT8` are `FLOAT`. -/
def sizedFloat : Rule where
  id := "TYPE004"
  name := "FLOAT4/FLOAT8 to FLOAT"
  category := .dataType
  edit? _ line := substitute floatWithSize (fun _ => "FLOAT".toList) line

/-- `UNSIGNED` is dropped. -/
def unsigned : Rule where
  id := "TYPE005"
  name := "UNSIGNED dropped"
  category := .dataType
  edit? _ line := substitute (gap ++ keyword "UNSIGNED" ++ boundary) (fun _ => []) line

/-- A `DECIMAL` of too large a precision gets the largest one, and keeps its scale. -/
def decimalPrecision : Rule where
  id := "TYPE006"
  name := "DECIMAL precision clamped to 38"
  category := .dataType
  edit? _ line :=
    substituteSome fixedPoint
      (fun m => do
        let precision ← Text.word32? (m.textOf "precision")
        if !Text.sameIgnoringCase (m.textOf "type") "DECIMAL".toList ||
            precision ≤ maxPrecision then
          none
        else
          some (m.textOf "type" ++ ['('] ++ (toString maxPrecision).toList ++ [','] ++
            m.textOf "scale" ++ [')']))
      line

/-- `FLOAT(p,s)` and `DOUBLE(p,s)` lose precision and scale. -/
def scaledFloat : Rule where
  id := "TYPE007"
  name := "FLOAT(p,s)/DOUBLE(p,s) precision dropped"
  category := .dataType
  edit? _ line :=
    substitute
      (boundary ++ group "type" (keyword "FLOAT" <|> keyword "DOUBLE") ++ blanks ++ char '(' ++
        blanks ++ digits ++ blanks ++ char ',' ++ blanks ++ digits ++ blanks ++ char ')')
      (·.textOf "type") line

/-- The name of a type of long texts. -/
def longTextName : Pattern :=
  boundary ++ (keyword "LONG" <|> keyword "MEDIUM") ++ keyword "TEXT" ++ boundary

/-- `LONGTEXT` and `MEDIUMTEXT` are `STRING`. -/
def longText : Rule where
  id := "TYPE008"
  name := "LONGTEXT/MEDIUMTEXT to STRING"
  category := .dataType
  edit? _ line := substitute longTextName (fun _ => "STRING".toList) line

/-- `bpchar` is `char`. -/
def paddedChar : Rule where
  id := "TYPE009"
  name := "bpchar to char"
  category := .dataType
  edit? _ line := substitute (wholeWord "bpchar") (fun _ => "char".toList) line

/-- `character varying` is `varchar`. -/
def characterVarying : Rule where
  id := "TYPE010"
  name := "character varying to varchar"
  category := .dataType
  edit? _ line :=
    substitute (boundary ++ phrase ["character", "varying"] ++ boundary)
      (fun _ => "varchar".toList) line

/-- `INT` with a display width. -/
def intWithWidth : Pattern :=
  boundary ++ keyword "INT" ++ blanks ++ char '(' ++ blanks ++ digits ++ blanks ++ char ')'

/-- The display width of `INT(n)` is dropped. -/
def intDisplayWidth : Rule where
  id := "TYPE011"
  name := "INT(n) to INTEGER"
  category := .dataType
  edit? _ line := substitute intWithWidth (fun _ => "INTEGER".toList) line

/-- The name of an integer type. -/
def integerType : Pattern := boundary ++ (keyword "INTEGER" <|> keyword "BIGINT") ++ boundary

/-- `INTEGER` and `BIGINT` are fixed-point numbers of eighteen digits. -/
def integer : Rule where
  id := "TYPE012"
  name := "INTEGER/BIGINT to NUMERIC(18,0)"
  category := .dataType
  edit? _ line := substitute integerType (fun _ => "NUMERIC(18,0)".toList) line

/-- `NUMERIC(p,s)` with digits behind the point is `DOUBLE`; with scale 0 it stays. -/
def numericScale : Rule where
  id := "TYPE013"
  name := "NUMERIC(p,s>0) to DOUBLE"
  category := .dataType
  edit? _ line :=
    substituteSome fixedPoint
      (fun m => do
        let scale ← Text.word32? (m.textOf "scale")
        if Text.sameIgnoringCase (m.textOf "type") "NUMERIC".toList && scale > 0 then
          some "DOUBLE".toList
        else
          none)
      line

/-- What a type stands behind: white space or a cast. -/
def typeLead : Pattern := one .blank <|> keyword "::"

/-- `JSON` in the place of a type, after white space or a cast, is `VARIANT`. -/
def json : Rule where
  id := "TYPE014"
  name := "JSON to VARIANT"
  category := .dataType
  edit? _ line :=
    substitute (group "lead" typeLead ++ keyword "JSON" ++ boundary)
      (fun m => m.textOf "lead" ++ "VARIANT".toList) line

end SqlDialect.Rule
