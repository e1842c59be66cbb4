import Opossum.Utils.LoadTable
import Opossum.Utils.LoadTableHeader
import Opossum.Foundation.FloatValue
import Opossum.Foundation.Decimal
import Opossum.Foundation.Rounding
import Opossum.Foundation.SixDigits
import Opossum.Operators.Print
import Opossum.Storage.ChunkShape
import Opossum.Storage.DictionaryBounds
import Opossum.Storage.DictionaryContents
import Opossum.Storage.CompressionOrder
import Opossum.Storage.Compression
import Opossum.Storage.TypeResolution
import Opossum.Storage.Counters
import Opossum.Storage.SchemaAlignment
import Opossum.Storage.SchemaLookup
import Opossum.Storage.ErrorAtomicity
import Opossum.NumberCasts
import Opossum.Storage.VariantBounds
import Opossum.Storage.AttributeWrites
import Opossum.Operators.AbstractOperator
import Opossum.Operators.PrintLoaded
import Opossum.Operators.BuildModes
import Opossum.Operators.CompleteTables
import Opossum.Storage.RowIDs
import Opossum.Utils.PerformanceWarning
import Opossum.Storage.HeldColumns
